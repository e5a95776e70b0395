import Mathlib.Algebra.BigOperators.Ring.Finset
import CS214.Spell.Memory
import CS214.Spell.Representation

/-!
# Spell — the hash table in memory

`tableAt d b chains` are the objects of a dictionary: the dictionary, its array of buckets, and for
every cell of a chain the entry and its word.  `dictOf chains` is the dictionary they stand for.

* `findEntry_gives`: the loop over a chain stops at the first entry with the word.
* `dictLookup_gives`, `dictAdd_meets`: the functions do on the objects what they do on the
  dictionary; `dict_add` allocates an entry and its word where there is none.
-/

open CString ObjectHeap

namespace CS214.Spell.Memory

/-- Objects with their addresses. -/
abbrev Objects := Multiset (Addr × Obj)

/-- An entry, with its address and that of its word. -/
structure Cell where
  addr : Addr
  word : Addr
  value : Spell.DictEntry

/-- The cells of each chain. -/
abbrev Chains := UInt32 → List Cell

/-- The pointer to these cells, behind which comes `p`. -/
def lead : List Cell → Option Addr → Option Addr
  | [], p => p
  | c :: _, _ => some c.addr

/-- The objects of a chain that ends in `p`. -/
def chain : List Cell → Option Addr → Objects
  | [], _ => 0
  | c :: cs, p =>
    obj c.addr (.entry ⟨some c.word, c.value.hasCapital, lead cs p⟩) +
      (obj c.word (.chars c.value.word) + chain cs p)

/-- The dictionary of the model. -/
def dictOf (chains : Chains) : Spell.Dict := ⟨fun h => (chains h).map Cell.value⟩

/-- The indices of the array. -/
@[irreducible] def indices : Finset UInt32 := (Finset.range hashSize.toNat).image UInt32.ofNat

/-- What the array holds. -/
def headsOf (chains : Chains) : List (Option Addr) :=
  (List.range hashSize.toNat).map fun k => lead (chains (UInt32.ofNat k)) none

/-- The dictionary and its array. -/
def frameAt (d b : Addr) (heads : List (Option Addr)) : Objects :=
  obj d (.dict ⟨some b, hashSize.toNat⟩) + obj b (.buckets heads)

/-- All objects of a dictionary. -/
def tableAt (d b : Addr) (chains : Chains) : Objects :=
  frameAt d b (headsOf chains) + ∑ h ∈ indices, chain (chains h) none

/-- The objects of all chains but one. -/
def others (chains : Chains) (h : UInt32) : Objects := ∑ k ∈ indices.erase h, chain (chains k) none

/-- The cell of a word that was added once more. -/
def Cell.add (capital : Bool) (c : Cell) : Cell :=
  if capital then { c with value := { c.value with hasCapital := true } } else c

variable {fails : Prop} {m : Objects} {d b : Addr} {heads : List (Option Addr)} {chains : Chains}
  {h : UInt32} {p : Option Addr} {c : Cell} {cs xs ys : List Cell} {n : ℕ} {word lower : Bytes}

/-! ### Chains -/

theorem lead_append : lead (xs ++ ys) p = lead xs (lead ys p) := by
  cases xs with
  | nil => rfl
  | cons x xs => rfl

theorem chain_append : chain (xs ++ ys) p = chain xs (lead ys p) + chain ys p := by
  induction xs with
  | nil => exact (zero_add _).symm
  | cons x xs ih =>
      rw [List.cons_append, chain, chain, ih, lead_append]
      ac_rfl

theorem chain_tail : chain cs p ≤ chain (c :: cs) p :=
  (Multiset.le_add_left _ _).trans (Multiset.le_add_left _ _)

/-- The entry of a cell in the middle, apart from the rest. -/
theorem chain_mid : chain (xs ++ c :: ys) p =
    obj c.addr (.entry ⟨some c.word, c.value.hasCapital, lead ys p⟩) +
      (chain xs (some c.addr) + (obj c.word (.chars c.value.word) + chain ys p)) := by
  rw [chain_append, chain, lead]
  ac_rfl

/-- **The loop** stops at the first entry with the word. -/
theorem findEntry_gives (hle : chain cs none ≤ m) (hn : cs.length ≤ n) :
    Gives fails m (findEntry lower n (lead cs none))
      ((cs.find? fun c => c.value.word = lower).map Cell.addr) := by
  induction cs generalizing n with
  | nil =>
      rw [lead, findEntry]
      exact gives_ret none
  | cons c cs ih =>
      obtain ⟨n, rfl⟩ := Nat.exists_eq_succ_of_ne_zero (Nat.ne_of_gt (Nat.lt_of_lt_of_le
        (Nat.succ_pos _) hn))
      have hentry : (c.addr, Obj.entry ⟨some c.word, c.value.hasCapital, lead cs none⟩) ∈ m :=
        mem_of_obj_le hle
      have hword : (c.word, Obj.chars c.value.word) ∈ m :=
        mem_of_obj_le ((Multiset.le_add_left _ _).trans hle)
      rw [lead, findEntry]
      refine meets_view hentry rfl (meets_deref (meets_view hword rfl ?_))
      by_cases hw : c.value.word = lower
      · rw [if_pos hw, List.find?_cons_of_pos (by simpa using hw)]
        exact gives_ret (some c.addr)
      · rw [if_neg hw, List.find?_cons_of_neg (by simpa using hw)]
        exact ih (chain_tail.trans hle) (Nat.le_of_succ_le_succ hn)

/-! ### The array -/

theorem getElem_headsOf (hh : h.toNat < hashSize.toNat) :
    (headsOf chains)[h.toNat]? = some (lead (chains h) none) := by
  rw [headsOf, List.getElem?_map, List.getElem?_range hh, Option.map_some, UInt32.ofNat_toNat]

theorem length_headsOf : (headsOf chains).length = hashSize.toNat := by
  rw [headsOf, List.length_map, List.length_range]

/-- One chain changes one pointer of the array. -/
theorem headsOf_update (h : UInt32) (cs : List Cell) :
    headsOf (Function.update chains h cs) = (headsOf chains).set h.toNat (lead cs none) := by
  refine List.ext_getElem (by rw [List.length_set, length_headsOf, length_headsOf]) fun k hk _ => ?_
  rw [length_headsOf] at hk
  have hlt : k < 2 ^ 32 := Nat.lt_of_lt_of_le hk (by decide)
  rw [List.getElem_set]
  simp only [headsOf, List.getElem_map, List.getElem_range]
  by_cases hkh : h.toNat = k
  · rw [if_pos hkh, ← hkh, UInt32.ofNat_toNat, Function.update_self]
  · have hne : UInt32.ofNat k ≠ h := fun e => hkh (by rw [← e, UInt32.toNat_ofNat_of_lt' hlt])
    rw [if_neg hkh, Function.update_of_ne hne]

theorem bucketArray_gives (hle : frameAt d b heads ≤ m) :
    Gives fails m (bucketArray d) (b, heads) := by
  have hdict : (d, Obj.dict ⟨some b, hashSize.toNat⟩) ∈ m :=
    mem_of_obj_le hle
  have hbuckets : (b, Obj.buckets heads) ∈ m :=
    mem_of_le_obj hle
  exact meets_view hdict rfl (meets_deref (meets_view hbuckets rfl (gives_ret _)))

theorem bucketAt_gives (hle : frameAt d b (headsOf chains) ≤ m) (hh : h.toNat < hashSize.toNat) :
    Gives fails m (bucketAt d h) (lead (chains h) none) := by
  refine (bucketArray_gives hle).bind ?_
  dsimp only
  rw [getElem_headsOf hh]
  exact gives_ret _

theorem setBucket_meets {entry : Addr} {R : Objects} (hh : h.toNat < heads.length) :
    Meets fails (frameAt d b heads + R) (setBucket d h entry) fun _ m =>
      m = frameAt d b (heads.set h.toNat (some entry)) + R := by
  have hsplit : ∀ heads, frameAt d b heads + R =
      obj b (.buckets heads) + (obj d (.dict ⟨some b, hashSize.toNat⟩) + R) := by
    intro heads
    rw [frameAt]
    ac_rfl
  refine (bucketArray_gives (Multiset.le_add_right _ R)).bind ?_
  dsimp only
  rw [if_pos hh, hsplit, hsplit]
  exact meets_store_ret rfl

/-! ### The table -/

theorem mem_indices (hh : h.toNat < hashSize.toNat) : h ∈ indices := by
  rw [indices]
  exact Finset.mem_image.mpr ⟨h.toNat, Finset.mem_range.mpr hh, UInt32.ofNat_toNat⟩

/-- One chain, apart from the others. -/
theorem tableAt_split (hh : h.toNat < hashSize.toNat) : tableAt d b chains =
    chain (chains h) none + (frameAt d b (headsOf chains) + others chains h) := by
  rw [tableAt, ← Finset.add_sum_erase _ _ (mem_indices hh), others]
  exact add_left_comm _ _ _

theorem others_update : others (Function.update chains h cs) h = others chains h :=
  Finset.sum_congr rfl fun k hk => by rw [Function.update_of_ne (Finset.ne_of_mem_erase hk)]

theorem tableAt_update (hh : h.toNat < hashSize.toNat) : tableAt d b (Function.update chains h cs) =
    chain cs none +
      (frameAt d b ((headsOf chains).set h.toNat (lead cs none)) + others chains h) := by
  rw [tableAt_split hh, Function.update_self, headsOf_update, others_update]

theorem dictOf_update : dictOf (Function.update chains h cs) =
    ⟨fun k => if k = h then cs.map Cell.value else (dictOf chains).buckets k⟩ := by
  refine congrArg Spell.Dict.mk (funext fun k => ?_)
  by_cases hk : k = h
  · rw [if_pos hk, hk, Function.update_self]
  · rw [if_neg hk, Function.update_of_ne hk]
    rfl

theorem frame_le_table : frameAt d b (headsOf chains) ≤ tableAt d b chains := by
  rw [tableAt]
  exact Multiset.le_add_right _ _

/-! ### The functions -/

theorem buffered_gives {s : Bytes} (hs : s.length < maxWordLen) : Gives fails m (buffered s) s := by
  rw [buffered, if_pos hs]
  exact gives_ret s

theorem find_value : ((dictOf chains).buckets h).find? (fun e => e.word = lower) =
    ((chains h).find? fun c => c.value.word = lower).map Cell.value :=
  List.find?_map

/-- `dict_lookup` on the objects. -/
theorem dictLookup_gives (hword : word.length < maxWordLen)
    (hn : (chains (hash (toLowerWord word))).length ≤ n) :
    Gives fails (tableAt d b chains) (dictLookup n d word)
      (Spell.dictLookup (dictOf chains) word) := by
  have hh := hash_lt (toLowerWord word)
  have hle : chain (chains (hash (toLowerWord word))) none ≤ tableAt d b chains := by
    rw [tableAt_split hh]
    exact Multiset.le_add_right _ _
  rw [dictLookup, Spell.dictLookup, find_value]
  refine (buffered_gives (by rwa [toLowerWord, List.length_map])).bind ?_
  refine (bucketAt_gives frame_le_table hh).bind ((findEntry_gives hle hn).bind ?_)
  cases hf : (chains (hash (toLowerWord word))).find? fun c => c.value.word = toLowerWord word with
  | none => exact gives_ret false
  | some c =>
      obtain ⟨xs, ys, hcs⟩ := List.append_of_mem (List.mem_of_find?_eq_some hf)
      rw [hcs, chain_mid] at hle
      exact meets_view (mem_of_obj_le hle) rfl
        (gives_ret _)

/-- The chain where the word is found, and what `dict_add` makes of it. -/
theorem updateChain_cells {capital : Bool} (hc : c.value.word = lower)
    (hxs : ∀ x ∈ xs, x.value.word ≠ lower) :
    updateChain lower capital ((xs ++ c :: ys).map Cell.value) =
      some ((xs ++ c.add capital :: ys).map Cell.value) := by
  induction xs with
  | nil =>
      rw [List.nil_append, List.map_cons, updateChain, if_pos hc]
      cases capital <;> rfl
  | cons x xs ih =>
      rw [List.cons_append, List.map_cons, updateChain, if_neg (hxs x List.mem_cons_self),
        ih fun y hy => hxs y (List.mem_cons_of_mem _ hy)]
      rfl

/-- What `dict_add` leaves of these chains: those of the dictionary with the word. -/
def Added (chains : Chains) (d b : Addr) (word : Bytes) (m : Objects) : Prop :=
  ∃ chains', m = tableAt d b chains' ∧ dictOf chains' = Spell.dictAdd (dictOf chains) word ∧
    ∀ k, (chains' k).length ≤ (chains k).length + 1

theorem length_update (hcs : cs.length ≤ (chains h).length + 1) (k : UInt32) :
    (Function.update chains h cs k).length ≤ (chains k).length + 1 := by
  by_cases hk : k = h
  · rw [hk, Function.update_self]
    exact hcs
  · rw [Function.update_of_ne hk]
    exact Nat.le_succ _

/-- The word is there: its entry gets the flag. -/
theorem added_found (hcs : chains (hash (toLowerWord word)) = xs ++ c :: ys)
    (hc : c.value.word = toLowerWord word) (hxs : ∀ x ∈ xs, x.value.word ≠ toLowerWord word) :
    Added chains d b word (chain (xs ++ c.add (startsUpper word) :: ys) none +
      (frameAt d b (headsOf chains) + others chains (hash (toLowerWord word)))) := by
  have hh := hash_lt (toLowerWord word)
  have hadd : (c.add (startsUpper word)).addr = c.addr := by
    rw [Cell.add]
    split <;> rfl
  have hlead : lead (xs ++ c.add (startsUpper word) :: ys) none =
      lead (chains (hash (toLowerWord word))) none := by
    rw [hcs, lead_append, lead_append, lead, lead, hadd]
  have hheads : (headsOf chains).set (hash (toLowerWord word)).toNat
      (lead (xs ++ c.add (startsUpper word) :: ys) none) = headsOf chains := by
    rw [hlead, ← headsOf_update, Function.update_eq_self]
  have hup : updateChain (toLowerWord word) (startsUpper word)
      ((dictOf chains).buckets (hash (toLowerWord word))) =
      some ((xs ++ c.add (startsUpper word) :: ys).map Cell.value) := by
    change updateChain _ _ ((chains (hash (toLowerWord word))).map Cell.value) = _
    rw [hcs]
    exact updateChain_cells hc hxs
  refine ⟨Function.update chains (hash (toLowerWord word))
    (xs ++ c.add (startsUpper word) :: ys), ?_, ?_, length_update ?_⟩
  · rw [tableAt_update hh, hheads]
  · rw [dictOf_update, Spell.dictAdd]
    dsimp only
    rw [hup]
  · rw [hcs, List.length_append, List.length_append, List.length_cons, List.length_cons]
    exact Nat.le_succ _

/-- The word is not there: it comes to the front of its chain. -/
theorem added_new {e w : Addr} (hf : ((chains (hash (toLowerWord word))).find?
      fun c => c.value.word = toLowerWord word) = none) :
    Added chains d b word (chain (⟨e, w, ⟨toLowerWord word, startsUpper word⟩⟩ ::
      chains (hash (toLowerWord word))) none + (frameAt d b ((headsOf chains).set
        (hash (toLowerWord word)).toNat (some e)) + others chains (hash (toLowerWord word)))) := by
  have hh := hash_lt (toLowerWord word)
  have hup : updateChain (toLowerWord word) (startsUpper word)
      ((dictOf chains).buckets (hash (toLowerWord word))) = none := by
    rw [updateChain_none, find_value, hf, Option.map_none]
  refine ⟨Function.update chains (hash (toLowerWord word))
    (⟨e, w, ⟨toLowerWord word, startsUpper word⟩⟩ :: chains (hash (toLowerWord word))), ?_, ?_,
    length_update ?_⟩
  · rw [tableAt_update hh, lead]
  · rw [dictOf_update, Spell.dictAdd]
    dsimp only
    rw [hup]
    rfl
  · rw [List.length_cons]

/-- `dict_add` on the objects, where no allocation fails. -/
theorem dictAdd_meets (hword : word.length < maxWordLen)
    (hn : (chains (hash (toLowerWord word))).length ≤ n) :
    Meets False (tableAt d b chains) (dictAdd n d word) fun _ m => Added chains d b word m := by
  have hh := hash_lt (toLowerWord word)
  have hsplit : tableAt d b chains = _ := tableAt_split hh
  have hle : chain (chains (hash (toLowerWord word))) none ≤ tableAt d b chains := by
    rw [hsplit]
    exact Multiset.le_add_right _ _
  rw [dictAdd]
  refine (buffered_gives (by rwa [toLowerWord, List.length_map])).bind ?_
  refine (bucketAt_gives frame_le_table hh).bind ((findEntry_gives hle hn).bind ?_)
  cases hf : (chains (hash (toLowerWord word))).find? fun c => c.value.word = toLowerWord word with
  | some c =>
      obtain ⟨hc, xs, ys, hcs, hxs⟩ := List.find?_eq_some_iff_append.mp hf
      have hfound := added_found (d := d) (b := b) hcs (by simpa using hc)
        (by simpa using hxs)
      rw [Option.map_some]
      dsimp only
      cases hup : startsUpper word with
      | false =>
          rw [hup] at hfound
          refine meets_ret ?_
          rw [hsplit, hcs]
          exact hfound
      | true =>
          rw [hup] at hfound
          have hmid : chain (xs ++ c :: ys) none = _ := chain_mid
          rw [if_pos rfl, hsplit, hcs, hmid, add_assoc]
          refine meets_view_obj rfl (meets_store_ret ?_)
          rw [chain_mid, add_assoc] at hfound
          exact hfound
  | none =>
      rw [Option.map_none]
      refine meets_malloc (fun hf => hf.elim) fun e => ?_
      refine meets_malloc (fun hf => hf.elim) fun w => meets_deref ?_
      have hframe : frameAt d b (headsOf chains) ≤
          obj w (.chars (toLowerWord word)) + (obj e .raw + tableAt d b chains) :=
        (frame_le_table.trans (Multiset.le_add_left _ _)).trans (Multiset.le_add_left _ _)
      refine (bucketAt_gives hframe hh).bind ?_
      rw [add_left_comm]
      refine meets_store ?_
      have harrange : obj e (.entry ⟨some w, startsUpper word,
            lead (chains (hash (toLowerWord word))) none⟩) +
          (obj w (.chars (toLowerWord word)) + tableAt d b chains) =
          frameAt d b (headsOf chains) +
            (chain (⟨e, w, ⟨toLowerWord word, startsUpper word⟩⟩ ::
                chains (hash (toLowerWord word))) none +
              others chains (hash (toLowerWord word))) := by
        rw [hsplit, chain]
        ac_rfl
      rw [harrange]
      refine (setBucket_meets (by rwa [length_headsOf])).imp fun _ m hm => ?_
      rw [hm, add_left_comm]
      exact added_new hf

/-- A dictionary without words. -/
theorem dictCreate_meets :
    Meets False 0 dictCreate fun d m => ∃ b, m = tableAt d b fun _ => [] := by
  have hheads : headsOf (fun _ => []) = List.replicate hashSize.toNat none := by
    rw [headsOf]
    simp only [lead, List.map_const', List.length_range]
  have hempty : ∑ h ∈ indices, chain ([] : List Cell) none = 0 := Finset.sum_const_zero
  rw [dictCreate]
  refine meets_malloc (fun hf => hf.elim) fun d => meets_deref (meets_store ?_)
  refine meets_malloc (fun hf => hf.elim) fun b => ?_
  rw [add_left_comm]
  refine meets_store (meets_ret ⟨b, ?_⟩)
  rw [tableAt, hheads, hempty, frameAt, add_zero, add_zero]

/-! ### How much is allocated -/

theorem card_chain (cs : List Cell) : (chain cs p).card = 2 * cs.length := by
  induction cs with
  | nil => rfl
  | cons c cs ih =>
      rw [chain, Multiset.card_add, Multiset.card_add, ih, List.length_cons, obj, obj,
        Multiset.card_singleton, Multiset.card_singleton]
      omega

theorem length_entries : (dictOf chains).entries.length = ∑ h ∈ indices, (chains h).length := by
  have hinj : Set.InjOn UInt32.ofNat (Finset.range hashSize.toNat : Set ℕ) := by
    have hsize : hashSize.toNat ≤ 2 ^ 32 := by decide
    intro a ha b hb e
    have ha := Finset.mem_range.mp ha
    have hb := Finset.mem_range.mp hb
    have hnat := congrArg UInt32.toNat e
    rwa [UInt32.toNat_ofNat_of_lt' (ha.trans_le hsize),
      UInt32.toNat_ofNat_of_lt' (hb.trans_le hsize)] at hnat
  rw [indices, Finset.sum_image hinj, Spell.Dict.entries, List.length_flatMap]
  refine congrArg List.sum (List.map_congr_left fun k _ => ?_)
  exact List.length_map _

/-- Two objects for the dictionary, and two for every entry. -/
theorem card_tableAt : (tableAt d b chains).card = 2 + 2 * (dictOf chains).entries.length := by
  rw [tableAt, Multiset.card_add, Multiset.card_sum, length_entries, Finset.mul_sum, frameAt,
    Multiset.card_add, obj, obj, Multiset.card_singleton, Multiset.card_singleton]
  exact congrArg (2 + ·) (Finset.sum_congr rfl fun h _ => card_chain _)

end CS214.Spell.Memory
