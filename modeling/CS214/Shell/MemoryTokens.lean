import CS214.Shell.Memory

/-!
# Shell — the memory of the tokens

`tokensAt t items capacity room vs` are the objects of a token array: the array, its items and the
string of every token of `vs`, which has the address of the string beside the token.

* `freeTokens_meets`: `free_tokens` releases exactly these objects.
* `tokenize_meets`: `tokenize` returns a token array with the tokens of the line, or an allocation
  has failed and nothing is left.  A `realloc` that fails leaves the string of the last token.
-/

open CString ObjectHeap

namespace CS214.Shell.Memory

/-- Objects with their addresses. -/
abbrev Objects := Multiset (Addr × Obj)

/-- A token, with the address of its value. -/
abbrev Val := Addr × Token

/-- What `tokens->items` has for a token. -/
def Val.item (v : Val) : TokenType × Addr := (v.2.type, v.1)

/-- The values of tokens. -/
def strings (vs : List Val) : Objects := (vs.map fun v => (v.1, Obj.chars v.2.value) : List _)

/-- The array and its items, which have room for `room` tokens. -/
def arrayAt (t items : Addr) (capacity room : ℕ) (vs : List Val) : Objects :=
  obj t (.tokenArray ⟨some items, vs.length, capacity⟩) +
    obj items (.items room (vs.map Val.item))

/-- All objects of a token array. -/
def tokensAt (t items : Addr) (capacity room : ℕ) (vs : List Val) : Objects :=
  strings vs + arrayAt t items capacity room vs

/-- What `tokenize` leaves for the tokens `ts`. -/
inductive Tokenized (fails : Prop) (ts : List Token) : Option Addr → Objects → Prop where
  | filled {t items : Addr} {capacity room : ℕ} {vs : List Val} (h : vs.map Prod.snd = ts) :
      Tokenized fails ts (some t) (tokensAt t items capacity room vs)
  | failed (h : fails) : Tokenized fails ts none 0
  | lost {v : Val} (h : fails) (long : 100 < ts.length) : Tokenized fails ts none (strings [v])

variable {fails : Prop} {β : Type} {m : Objects} {P : β → Objects → Prop} {t items copy : Addr}
  {capacity room i n : ℕ} {v : Val} {vs ws : List Val} {s : Bytes} {tokens : TokenArray}

theorem strings_nil : strings [] = 0 := rfl

theorem strings_cons : strings (v :: vs) = obj v.1 (.chars v.2.value) + strings vs := rfl

theorem strings_append : strings (vs ++ ws) = strings vs + strings ws := by
  rw [strings, List.map_append, ← Multiset.coe_add]
  rfl

theorem strings_concat : strings (vs ++ [v]) = obj v.1 (.chars v.2.value) + strings vs := by
  rw [strings_append, add_comm]
  rfl

theorem mem_strings (h : v ∈ vs) : (v.1, Obj.chars v.2.value) ∈ strings vs :=
  List.mem_map_of_mem (f := fun v : Val => (v.1, Obj.chars v.2.value)) h

/-! ### Calls outside the heap -/

theorem meets_sys {γ : Type} {p : SysM γ} {k : γ → MemM β} (hk : ∀ x, Meets fails m (k x) P) :
    Meets fails m (sys p >>= k) P :=
  Meets.embed hk

theorem meets_overflow : Meets fails m (sys overflow : MemM β) P :=
  meets_call (c := .other (Outside.sys .overflow)) fun _ _ _ => ⟨trivial, fun x : Empty => x.elim⟩

theorem meets_noMemory {what : Bytes} {k : Bytes → MemM β}
    (hk : Meets fails m (k (what ++ ascii ": Cannot allocate memory\n")) P) :
    Meets fails m (noMemory what >>= k) P := by
  rw [noMemory, Program.bind_assoc]
  exact meets_sys fun _ => hk

/-! ### The items of an array -/

theorem arrayAt_get (h : arrayAt t items capacity room vs ≤ m) :
    (t, Obj.tokenArray ⟨some items, vs.length, capacity⟩) ∈ m :=
  mem_of_obj_le h

theorem arrayAt_items (h : arrayAt t items capacity room vs ≤ m) :
    (items, Obj.items room (vs.map Val.item)) ∈ m :=
  mem_of_le_obj h

theorem meets_array {k : TokenArray → MemM β} (h : arrayAt t items capacity room vs ≤ m)
    (hk : Meets fails m (k ⟨some items, vs.length, capacity⟩) P) :
    Meets fails m (view Obj.tokenArray? t >>= k) P :=
  meets_view (arrayAt_get h) rfl hk

theorem meets_itemAt {k : TokenType × Addr → MemM β} (h : arrayAt t items capacity room vs ≤ m)
    (hv : vs[i]? = some v) (hk : Meets fails m (k v.item) P) :
    Meets fails m (itemAt ⟨some items, n, capacity⟩ i >>= k) P := by
  rw [itemAt, Program.bind_assoc]
  refine meets_deref ?_
  rw [Program.bind_assoc]
  refine meets_view (arrayAt_items h) rfl ?_
  rw [List.getElem?_map, hv]
  exact hk

theorem meets_tokenAt {k : Option (TokenType × Addr) → MemM β}
    (h : arrayAt t items capacity room vs ≤ m) (hk : Meets fails m (k (vs[i]?.map Val.item)) P) :
    Meets fails m (tokenAt t i >>= k) P := by
  rw [tokenAt, Program.bind_assoc]
  refine meets_array h ?_
  by_cases hi : i < vs.length
  · have hv := List.getElem?_eq_getElem hi
    rw [hv] at hk
    rw [if_pos hi, Program.bind_assoc]
    exact meets_itemAt h hv hk
  · rw [List.getElem?_eq_none (Nat.le_of_not_lt hi)] at hk
    rw [if_neg hi]
    exact hk

/-! ### `free_tokens` -/

/-- The first of the strings are already released. -/
theorem freeValues_meets (before rest : List Val) :
    Meets fails (strings rest + arrayAt t items capacity room (before ++ rest))
      (freeValues t before.length rest.length) fun _ m =>
        m = arrayAt t items capacity room (before ++ rest) := by
  induction rest generalizing before with
  | nil => exact meets_ret (zero_add _)
  | cons v rest ih =>
      have hle := Multiset.le_add_left (arrayAt t items capacity room (before ++ v :: rest))
        (strings (v :: rest))
      have hget : (before ++ v :: rest)[before.length]? = some v := by simp
      rw [List.length_cons, freeValues]
      refine meets_array hle (meets_itemAt hle hget ?_)
      rw [strings_cons, add_assoc]
      refine meets_free ?_
      have hrest := ih (before ++ [v])
      rwa [List.append_assoc, List.singleton_append, List.length_append] at hrest

theorem freeTokens_meets : Meets fails (tokensAt t items capacity room vs) (freeTokens (some t))
    fun _ m => m = 0 := by
  rw [freeTokens]
  refine meets_array (Multiset.le_add_left _ _) ?_
  refine (freeValues_meets [] vs).bind fun _ m hm => ?_
  obtain rfl := hm
  rw [List.nil_append, arrayAt, add_comm]
  refine meets_free ?_
  rw [← add_zero (obj t _), ← Program.bind_ret (free t)]
  exact meets_free (meets_ret rfl)

/-! ### `tokenize` -/

/-- A full array gets twice the room. -/
theorem growItems_meets (hfull : vs.length ≤ capacity) (hpos : 0 < capacity) :
    Meets fails (arrayAt t items capacity capacity vs) (growItems t) fun room m =>
      (room = true ∧ ∃ items' capacity', vs.length < capacity' ∧ capacity ≤ capacity' ∧
        m = arrayAt t items' capacity' capacity' vs) ∨
      (room = false ∧ fails ∧ capacity ≤ vs.length ∧
        m = arrayAt t items (capacity * 2) capacity vs) := by
  rw [growItems]
  refine meets_array le_rfl ?_
  by_cases hge : vs.length ≥ capacity
  · rw [if_pos hge, arrayAt]
    refine meets_store (meets_deref ?_)
    rw [add_comm]
    refine meets_realloc (fun hf => ?_) fun items' => ?_
    · refine meets_ret (.inr ⟨rfl, hf, hge, ?_⟩)
      rw [arrayAt, add_comm]
    · refine Meets.of_eq (add_comm _ _) (meets_store ?_)
      exact meets_ret (.inl ⟨rfl, items', capacity * 2, by omega, by omega, rfl⟩)
  · rw [if_neg hge]
    exact meets_ret (.inl ⟨rfl, items, capacity, by omega, le_rfl, rfl⟩)

theorem pushToken_meets (hroom : vs.length < room) :
    Meets fails (arrayAt t items capacity room vs) (pushToken t v.item)
      fun _ m => m = arrayAt t items capacity room (vs ++ [v]) := by
  rw [pushToken]
  refine meets_array le_rfl (meets_deref ?_)
  refine meets_view (arrayAt_items le_rfl) rfl ?_
  rw [if_pos ⟨(List.length_map _).symm, hroom⟩, arrayAt]
  refine Meets.of_eq (add_comm _ _) (meets_store ?_)
  refine Meets.of_eq (add_comm _ _) ?_
  refine meets_store_ret ?_
  rw [arrayAt, List.length_append, List.map_append]
  rfl

/-- The way out when the string of another token, or the room for it, is missing. -/
theorem giveUpTokens_meets {what c : Bytes} (R : Objects) {Q : Option Addr → Objects → Prop}
    (h : Q none R) :
    Meets fails (obj copy (.chars c) + (tokensAt t items capacity room vs + R))
      (do let _ ← noMemory what; free copy; freeTokens (some t); return none) Q := by
  refine meets_noMemory (meets_free (freeTokens_meets.release fun _ => ?_))
  exact meets_ret h

theorem tokenLoop_meets {ts : List Token} {c : Bytes}
    (hts : vs.map Prod.snd ++ Shell.tokenLoop n s = ts)
    (hfull : vs.length ≤ capacity) (hpos : 100 ≤ capacity) :
    Meets fails (obj copy (.chars c) + tokensAt t items capacity capacity vs)
      (tokenLoop t copy n s) (Tokenized fails ts) := by
  induction n generalizing s vs items capacity with
  | zero =>
      rw [Shell.tokenLoop, List.append_nil] at hts
      exact meets_free (meets_ret (.filled hts))
  | succ n ih =>
      rw [tokenLoop]
      rw [Shell.tokenLoop] at hts
      refine meets_view_obj rfl ?_
      cases hs : strtok s with
      | none =>
          rw [hs, List.append_nil] at hts
          exact meets_free (meets_ret (.filled hts))
      | some r =>
          obtain ⟨w, rest⟩ := r
          rw [hs] at hts
          refine meets_malloc (fun hf => ?_) fun a => ?_
          · rw [← add_zero (tokensAt t _ _ _ _)]
            exact giveUpTokens_meets 0 (.failed hf)
          · -- the array is grown beside the strings, the copy and the new string
            let v : Val := (a, ⟨tokenType w, w⟩)
            have hlong : capacity ≤ vs.length → 100 < ts.length := by
              intro hge
              rw [← hts, List.length_append, List.length_cons, List.length_map]
              omega
            have harrange : obj a (.chars w) +
                (obj copy (.chars c) + tokensAt t items capacity capacity vs) =
                arrayAt t items capacity capacity vs +
                  (obj copy (.chars c) + strings (vs ++ [v])) := by
              rw [strings_concat, tokensAt]
              ac_rfl
            rw [harrange]
            refine (growItems_meets hfull (by omega)).bind_frame fun room m hm => ?_
            rcases hm with ⟨rfl, items', capacity', hlt, hle, rfl⟩ | ⟨rfl, hf, hge, rfl⟩
            · rw [if_pos rfl]
              refine (pushToken_meets (v := v) hlt).bind_frame fun _ m hm => ?_
              subst hm
              have htokens : arrayAt t items' capacity' capacity' (vs ++ [v]) +
                  (obj copy (.chars c) + strings (vs ++ [v])) =
                  obj copy (.chars c) + tokensAt t items' capacity' capacity' (vs ++ [v]) := by
                rw [tokensAt]
                ac_rfl
              rw [htokens]
              refine ih ?_ ?_ (by omega)
              · rw [List.map_append, List.append_assoc]
                exact hts
              · rw [List.length_append]
                exact hlt
            · rw [if_neg Bool.false_ne_true]
              have hlost : arrayAt t items (capacity * 2) capacity vs +
                  (obj copy (.chars c) + strings (vs ++ [v])) = obj copy (.chars c) +
                  (tokensAt t items (capacity * 2) capacity vs + strings [v]) := by
                rw [strings_append, tokensAt]
                ac_rfl
              rw [hlost]
              exact giveUpTokens_meets _ (.lost hf (hlong hge))

/-- **`tokenize`** keeps the line, and returns the tokens of it or `NULL`. -/
theorem tokenize_meets {line : Addr} {text : Bytes} :
    Meets fails (obj line (.chars text)) (tokenize line) fun r m =>
      ∃ m', Tokenized fails (Shell.tokenize text) r m' ∧ m = m' + obj line (.chars text) := by
  rw [tokenize]
  refine meets_malloc (fun hf => ?_) fun t => ?_
  · exact meets_noMemory (meets_ret ⟨0, .failed hf, (zero_add _).symm⟩)
  refine meets_malloc (fun hf => ?_) fun items => ?_
  · refine meets_store (meets_noMemory (meets_free ?_))
    exact meets_ret ⟨0, .failed hf, (zero_add _).symm⟩
  rw [add_left_comm]
  refine meets_store ?_
  have htokens : obj t (.tokenArray ⟨some items, 0, 100⟩) +
      (obj items (.items 100 []) + obj line (.chars text)) =
      obj line (.chars text) + tokensAt t items 100 100 [] := by
    rw [tokensAt, strings, arrayAt]
    simp only [List.map_nil, Multiset.coe_nil, zero_add, List.length_nil]
    ac_rfl
  rw [htokens]
  refine meets_view_obj rfl ?_
  dsimp only
  by_cases hhash : (text.dropWhile isSpace).head? = some 35
  · rw [if_pos hhash]
    refine meets_ret ⟨_, .filled ?_, add_comm _ _⟩
    rw [Shell.tokenize, if_pos hhash]
    rfl
  · rw [if_neg hhash]
    refine meets_malloc (fun hf => ?_) fun copy => ?_
    · refine meets_noMemory (Meets.of_eq (add_comm _ _) (freeTokens_meets.release fun _ => ?_))
      exact meets_ret ⟨0, .failed hf, (zero_add _).symm⟩
    · rw [add_left_comm, add_comm]
      refine (tokenLoop_meets ?_ (Nat.zero_le 100) le_rfl).frame.imp fun r m hm => hm
      rw [Shell.tokenize, if_neg hhash]
      rfl

end CS214.Shell.Memory
