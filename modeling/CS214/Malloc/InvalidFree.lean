import CS214.Malloc.Integrity

/-!
# Malloc — which pointers `myfree` rejects

`myfree` judges a pointer by the word before it.  For the payload of a live allocation that word is
a header.  For any other aligned pointer into the heap it is payload: what a client has written
there, or what a client or the allocator left.  `Forged` says that such a word looks like the
header of a live chunk.

`detects_iff`: along every run in which no forged pointer is freed, `myfree` recognises exactly the
live allocations if and only if the pointer is not forged.  `forged_accepted` is a run of one
allocation and one byte written that forges a pointer.
-/

namespace CS214.Malloc

variable {A : Arena} {m : ByteMemory} {s s' : Client} {R R' : geometry.Region}

/-- The pointer is an aligned address of the heap, and the word before it, which lies in the payload
of some chunk, reads as the header of a live chunk inside the heap. -/
structure Forged (A : Arena) (m : ByteMemory) (p : UInt64) : Prop where
  valid : validPtr A p = true
  validChunk : validPtr A (p - headerSize) = true
  payload : ∃ c ∈ chunks A m, c.toNat + 8 ≤ (p - headerSize).toNat ∧
    (p - headerSize).toNat < c.toNat + 8 + (chunkSize m c).toNat
  flagged : isFree m (p - headerSize) = false
  inBounds : Plausible A m (p - headerSize)

instance (p : UInt64) : Decidable (Forged A m p) :=
  decidable_of_iff (validPtr A p = true ∧ validPtr A (p - headerSize) = true ∧
      (∃ c ∈ chunks A m, c.toNat + 8 ≤ (p - headerSize).toNat ∧
        (p - headerSize).toNat < c.toNat + 8 + (chunkSize m c).toNat) ∧
      isFree m (p - headerSize) = false ∧ Plausible A m (p - headerSize))
    ⟨fun ⟨h₁, h₂, h₃, h₄, h₅⟩ => ⟨h₁, h₂, h₃, h₄, h₅⟩,
      fun ⟨h₁, h₂, h₃, h₄, h₅⟩ => ⟨h₁, h₂, h₃, h₄, h₅⟩⟩

/-- `myfree(p)` returns when `p` is a live allocation, and otherwise exits with status 2 and leaves
the heap as it was. -/
def Detects (A : Arena) (s : Client) (p : UInt64) (file : String) (line : ℤ) : Prop :=
  ((∃ a ∈ s.live, a.ptr = p) → ∃ h' err, myfree A s.heap p file line = .ret () h' err) ∧
    ((¬ ∃ a ∈ s.live, a.ptr = p) → ∃ err, myfree A s.heap p file line = .exit 2 s.heap err)

/-- The operations of a client that may free any pointer but a forged one. -/
def Unforged (A : Arena) (s : Client) : Op → Prop
  | .malloc n file line => Disciplined s (.malloc n file line)
  | .free p _ _ => ¬ Forged A s.heap.mem p
  | .write x v => Disciplined s (.write x v)

instance (s : Client) : (op : Op) → Decidable (Unforged A s op)
  | .malloc n file line => inferInstanceAs (Decidable (Disciplined s (.malloc n file line)))
  | .free _ _ _ => inferInstanceAs (Decidable (¬ _))
  | .write x v => inferInstanceAs (Decidable (Disciplined s (.write x v)))

/-- An accepted pointer that is no live allocation is forged. -/
theorem Inv.forged_of_accepted (hI : Inv A s R) {p : UInt64} (ha : Accepted A s.heap.mem p)
    (hno : ¬ ∃ a ∈ s.live, a.ptr = p) : Forged A s.heap.mem p := by
  have hR := hI.holds.headers_of_accepted ha
  obtain ⟨k, rfl, hk, hc⟩ := accepted_cases hR ha
  obtain ⟨h₁, h₂, h₃, h₄⟩ := ha
  rw [at_sub_header] at h₂ h₃ h₄
  rcases hc with hl | hs
  · exact absurd ((hI.live_iff (by omega)).mpr hl) hno
  · have hcov := R.covers
    simp only [geometry_total] at hcov
    obtain ⟨o, b, hb, hok, hko⟩ := Geometry.layout_cover (G := geometry) R.blocks
      (Nat.zero_le k) (by omega)
    have hbd := header_bounds hb
    have hne : o ≠ k := fun e => hs.noHeader b (e ▸ hb)
    have ho₈ := dvd_of_header hb
    have hk₈ := hs.dvd
    simp only [geometry_hdr] at hko
    refine ⟨h₁, by rwa [at_sub_header], ⟨A.at o, (mem_chunks hR).mpr ⟨o, b, hb, rfl⟩, ?_, ?_⟩,
      by rwa [at_sub_header], by rwa [at_sub_header]⟩
    · rw [at_sub_header, Arena.at_toNat (by omega), Arena.at_toNat (by omega)]
      omega
    · rw [at_sub_header, (chunk_spec hR hb).1, Arena.at_toNat (by omega),
        Arena.at_toNat (by omega)]
      omega

/-- A forged pointer is accepted, and is no live allocation. -/
theorem Inv.accepted_of_forged (hI : Inv A s R) {p : UInt64} (hf : Forged A s.heap.mem p) :
    Accepted A s.heap.mem p ∧ ¬ ∃ a ∈ s.live, a.ptr = p := by
  have ha : Accepted A s.heap.mem p := ⟨hf.valid, hf.validChunk, hf.flagged, hf.inBounds⟩
  have hR := hI.holds.headers_of_accepted ha
  obtain ⟨k, rfl, hk, -⟩ := accepted_cases hR ha
  refine ⟨ha, fun hl => ?_⟩
  obtain ⟨n, hl⟩ := (hI.live_iff (by omega)).mp hl
  obtain ⟨c, hc, h₁, h₂⟩ := hf.payload
  obtain ⟨o, b, hb, rfl⟩ := (mem_chunks hR).mp hc
  have hbd := header_bounds hb
  rw [(chunk_spec hR hb).1] at h₂
  rw [at_sub_header, Arena.at_toNat (by omega), Arena.at_toNat (by omega)] at h₁ h₂
  have := Geometry.layout_apart hb hl
  simp only [geometry_hdr] at this
  omega

/-- A free that returns, of a pointer that is not forged, is a disciplined one. -/
theorem Inv.disciplined (hI : Inv A s R) {op : Op} (hu : Unforged A s op)
    (h : step A s op = some s') : Disciplined s op := by
  cases op with
  | malloc n file line => exact hu
  | write x v => exact hu
  | free p file line =>
      by_cases hp : p = 0
      · exact .inl hp
      · by_cases hl : ∃ a ∈ s.live, a.ptr = p
        · exact .inr hl
        · have hna : ¬ Accepted A s.heap.mem p := fun ha => hu (hI.forged_of_accepted ha hl)
          rw [step, myfree_rejected hp hna file line, inappropriate] at h
          cases h

theorem unforged_run_inv (hm : ZeroHeap A m) {ops : List Op}
    (h : Run (step A) (Unforged A) (start m) ops s) : ∃ R, Inv A s R :=
  h.invariant (I := fun s => ∃ R, Inv A s R)
    (fun _ _ _ hI hu hs => step_inv_of hI (hI.elim fun _ hI => hI.disciplined hu hs) hs)
    ⟨_, inv_start hm⟩

theorem not_detects_of_accepted {p : UInt64} {file : String} {line : ℤ}
    (ha : Accepted A s.heap.mem p) (hl : ¬ ∃ a ∈ s.live, a.ptr = p) :
    ¬ Detects A s p file line := by
  intro hd
  obtain ⟨err, he⟩ := hd.2 hl
  rw [myfree_accepted ha] at he
  cases hc : coalesce A (markFree s.heap.mem (p - headerSize)) <;> simp [hc] at he

/-- **Invalid-free detection.**  In every state reached by a run that frees no forged pointer, and
for every pointer but the null one, `myfree` recognises whether it is a live allocation exactly
when the pointer is not forged. -/
theorem detects_iff (hm : ZeroHeap A m) {ops : List Op}
    (h : Run (step A) (Unforged A) (start m) ops s) {p : UInt64} (hp : p ≠ 0) (file : String)
    (line : ℤ) : Detects A s p file line ↔ ¬ Forged A s.heap.mem p := by
  obtain ⟨R, hI⟩ := unforged_run_inv hm h
  constructor
  · intro hd hf
    obtain ⟨ha, hl⟩ := hI.accepted_of_forged hf
    exact not_detects_of_accepted ha hl hd
  · refine fun hf => ⟨fun ⟨a, ha, e⟩ => ?_, ?_⟩
    · subst e
      obtain ⟨h', R', h₁, -⟩ := hI.myfree_ret ha file line
      exact ⟨h', "", h₁⟩
    · intro hl
      exact ⟨_, myfree_rejected hp (fun ha => hf (hI.forged_of_accepted ha hl)) file line⟩

/-- One allocation of 24 bytes, whose first word is then made 9: the header of a live chunk of 8
bytes. -/
def forgeOps : List Op := [.malloc 24 "client.c" 1, .write 65544 9]

theorem forgeOps_run :
    (Run.exec (step .sample) (Unforged .sample) (start fun _ => 0) forgeOps).isSome = true := by
  decide +kernel

theorem detects_live_sample :
    Detects .sample
      ((Run.exec (step .sample) (Unforged .sample) (start fun _ => 0) forgeOps).get forgeOps_run)
      65544 "client.c" 3 :=
  (detects_iff (fun _ _ _ => rfl) (Run.of_isSome forgeOps_run) (by decide) "client.c" 3).mpr
    (by decide +kernel)

theorem forgeOps_disciplined :
    (Run.exec (step .sample) Disciplined (start fun _ => 0) forgeOps).isSome = true := by
  decide +kernel

/-- After that run `myfree` accepts the pointer to the second word of the payload. -/
theorem forged_accepted :
    ∃ s, Run (step .sample) Disciplined (start fun _ => 0) forgeOps s ∧
      ¬ Detects .sample s 65552 "client.c" 3 := by
  refine ⟨_, Run.of_isSome forgeOps_disciplined, not_detects_of_accepted ?_ ?_⟩ <;> decide +kernel

end CS214.Malloc
