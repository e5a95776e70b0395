import Mathlib.Data.Finset.Fold
import Mathlib.Data.Nat.Bitwise
import Mathlib.Data.Fintype.Basic
import CS214.Lib.NimGame

/-!
# Who wins at Nim

The nim-sum of the piles is their sum in base two without carries.  From a sum that is not zero
there is a move to zero (`reply_spec`), and from zero every move leads to one that is not
(`nimSum_take_ne`).  So a player is ahead when the sum is not zero on the own turn, and zero on the
other's.  Who is ahead stays so by moving to zero on every own turn, whatever the other player does
(`Ahead.play`), and has taken the last stone when no stone is left.
-/

namespace NimGame

variable {ι : Type*}

/-- The sum of the piles of a set, without carries. -/
def partialSum (s : Finset ι) (piles : ι → ℕ) : ℕ := s.fold (· ^^^ ·) 0 piles

/-- The pile taken down to this size, or nothing. -/
def reduce (P : Position ι) (size : ℕ) (i : ι) : Move ι := ⟨i, P.piles i - size⟩

theorem partialSum_congr {s : Finset ι} {piles piles' : ι → ℕ} (h : ∀ i ∈ s, piles i = piles' i) :
    partialSum s piles = partialSum s piles' :=
  Finset.fold_congr h

section

variable [DecidableEq ι] {piles : ι → ℕ} {s : Finset ι} {i : ι}

theorem partialSum_insert (h : i ∉ s) :
    partialSum (insert i s) piles = piles i ^^^ partialSum s piles :=
  Finset.fold_insert h

theorem partialSum_eq_zero (h : ∀ i ∈ s, piles i = 0) : partialSum s piles = 0 := by
  induction s using Finset.induction_on with
  | empty => rfl
  | insert j s hj ih =>
      rw [partialSum_insert hj, h j (Finset.mem_insert_self j s),
        ih fun i hi => h i (Finset.mem_insert_of_mem hi)]
      rfl

/-- A pile that a sum of its own size or more can be taken down in. -/
theorem exists_smaller {a : ℕ} (h : a < partialSum s piles) :
    ∃ i ∈ s, (a ^^^ partialSum s piles) ^^^ piles i < piles i := by
  induction s using Finset.induction_on generalizing a with
  | empty => exact absurd h (Nat.not_lt_zero a)
  | insert j s hj ih =>
      rw [partialSum_insert hj] at h ⊢
      rcases Nat.lt_xor_cases h with hlt | hlt
      · refine ⟨j, Finset.mem_insert_self j s, ?_⟩
        rwa [Nat.xor_comm (piles j), ← Nat.xor_assoc, Nat.xor_assoc, Nat.xor_self, Nat.xor_zero]
      · obtain ⟨i, hi, hsmall⟩ := ih hlt
        refine ⟨i, Finset.mem_insert_of_mem hi, ?_⟩
        rwa [← Nat.xor_assoc a]

end

variable [Fintype ι]

/-- The exclusive or of all piles. -/
def nimSum (piles : ι → ℕ) : ℕ := partialSum Finset.univ piles

/-- `p` is on turn with a sum that is not zero, or the other player with zero; and when no stone is
left, `p` took the last one. -/
def Ahead (p : Seat) (P : Position ι) : Prop :=
  if P.stones = 0 then P.turn = p else P.turn = p ↔ nimSum P.piles ≠ 0

theorem piles_of_stones {P : Position ι} (h : P.stones = 0) (i : ι) : P.piles i = 0 :=
  Finset.sum_eq_zero_iff.mp h i (Finset.mem_univ i)

variable [DecidableEq ι]

/-- The move that leaves the nim-sum zero, in the first pile of a list that allows it. -/
def reply (order : List ι) (P : Position ι) : Option (Move ι) :=
  (order.find? fun i => nimSum P.piles ^^^ P.piles i < P.piles i).map fun i =>
    reduce P (nimSum P.piles ^^^ P.piles i) i

variable {P Q : Position ι} {m : Move ι} {i : ι} {piles : ι → ℕ}

theorem nimSum_eq_zero (h : ∀ i, piles i = 0) : nimSum piles = 0 :=
  partialSum_eq_zero fun i _ => h i

/-- One pile changed. -/
theorem nimSum_update (x : ℕ) :
    nimSum (Function.update piles i x) = nimSum piles ^^^ piles i ^^^ x := by
  have hrest : partialSum (Finset.univ.erase i) (Function.update piles i x) =
      partialSum (Finset.univ.erase i) piles :=
    partialSum_congr fun j hj => Function.update_of_ne (Finset.ne_of_mem_erase hj) _ _
  have hsplit : ∀ f : ι → ℕ, nimSum f = f i ^^^ partialSum (Finset.univ.erase i) f := by
    intro f
    rw [← partialSum_insert (Finset.notMem_erase i _), Finset.insert_erase (Finset.mem_univ i)]
    rfl
  rw [hsplit, hsplit piles, hrest, Function.update_self,
    Nat.xor_comm (piles i) (partialSum _ piles), Nat.xor_assoc (partialSum _ piles), Nat.xor_self,
    Nat.xor_zero, Nat.xor_comm]

theorem nimSum_take : nimSum (P.take m) =
    nimSum P.piles ^^^ P.piles m.pile ^^^ (P.piles m.pile - m.amount) :=
  nimSum_update _

/-! ### The two kinds of positions -/

/-- From a sum that is not zero there is a move to zero. -/
theorem reply_spec {order : List ι} (horder : ∀ i, i ∈ order) (h : nimSum P.piles ≠ 0) :
    ∃ m, reply order P = some m ∧ Legal P m ∧ nimSum (P.take m) = 0 := by
  obtain ⟨i, -, hi⟩ := exists_smaller (Nat.pos_of_ne_zero h)
  rw [Nat.zero_xor] at hi
  have hfound : (order.find? fun i => nimSum P.piles ^^^ P.piles i < P.piles i).isSome = true :=
    List.find?_isSome.mpr ⟨i, horder i, decide_eq_true hi⟩
  obtain ⟨j, hj⟩ := Option.isSome_iff_exists.mp hfound
  have hsmall : nimSum P.piles ^^^ P.piles j < P.piles j :=
    of_decide_eq_true (List.find?_some (p := fun i => nimSum P.piles ^^^ P.piles i < P.piles i) hj)
  refine ⟨reduce P (nimSum P.piles ^^^ P.piles j) j, by rw [reply, hj]; rfl, ⟨?_, ?_⟩, ?_⟩
  · exact Nat.sub_pos_of_lt hsmall
  · exact Nat.sub_le _ _
  · rw [nimSum_take, reduce, Nat.sub_sub_self (Nat.le_of_lt hsmall), Nat.xor_self]

/-- From zero every move leads to a sum that is not. -/
theorem nimSum_take_ne (h : nimSum P.piles = 0) (hm : Legal P m) : nimSum (P.take m) ≠ 0 := by
  obtain ⟨hpos, hle⟩ := hm
  rw [nimSum_take, h, Nat.zero_xor, ne_eq, Nat.xor_eq_zero_iff]
  omega

/-! ### Playing ahead -/

/-- A player who is ahead and on turn has a move to zero. -/
theorem Ahead.reply {p : Seat} (h : Ahead p P) (hs : P.stones ≠ 0) (ht : P.turn = p)
    {order : List ι} (horder : ∀ i, i ∈ order) :
    ∃ m, NimGame.reply order P = some m ∧ Legal P m ∧ nimSum (P.take m) = 0 := by
  rw [Ahead, if_neg hs] at h
  exact reply_spec horder (h.mp ht)

/-- A move keeps a player ahead, if on the own turn it is one to zero. -/
theorem Ahead.play {p : Seat} (h : Ahead p P) (hm : Legal P m)
    (hown : P.turn = p → nimSum (P.take m) = 0) : Ahead p (P.play m) := by
  have hs : P.stones ≠ 0 := by
    have htake := stones_play hm
    have hpos := hm.1
    omega
  rw [Ahead, if_neg hs] at h
  rw [Ahead, play_turn, play_piles]
  by_cases ht : P.turn = p
  · have hzero := hown ht
    split
    · exact ht
    · refine iff_of_false ?_ (not_not.mpr hzero)
      rw [ht]
      exact p.other_ne
  · have hsum : nimSum P.piles = 0 := not_not.mp fun hne => ht (h.mpr hne)
    have hne := nimSum_take_ne hsum hm
    have hleft : (P.play m).stones ≠ 0 := fun h₀ => hne <| nimSum_eq_zero fun i => by
      rw [← play_piles]
      exact piles_of_stones h₀ i
    rw [if_neg hleft, if_neg hleft]
    refine iff_of_true ?_ hne
    rcases P.turn.eq_or_eq_other p with e | e
    · exact absurd e ht
    · rw [e, Seat.other_other]

end NimGame
