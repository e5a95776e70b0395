import Mathlib.Data.List.Nodup

/-!
# A list that names every holder once

`Roster l R`: the list `l` holds exactly the names of the holders, where `R k a` says that `k` holds
the name `a`, each of them once, and no two holders have the same name.

* `Roster.add`: a new holder of an unused name.
* `Roster.remove`: a holder gives up its name, and `List.erase` takes it off the list.
-/

/-- `l` lists the names held, once each, and a name has one holder. -/
structure Roster {κ α : Type*} (l : List α) (R : κ → α → Prop) : Prop where
  nodup : l.Nodup
  mem_iff : ∀ a, a ∈ l ↔ ∃ k, R k a
  unique : ∀ k k' a, R k a → R k' a → k = k'

namespace Roster

variable {κ α : Type*} {l : List α} {R R' : κ → α → Prop} {k : κ} {a : α}

theorem empty (h : ∀ k a, ¬ R k a) : Roster [] R where
  nodup := List.nodup_nil
  mem_iff b := by simpa using fun k => h k b
  unique k k' b hk := absurd hk (h k b)

/-- The same holders. -/
theorem congr (h : Roster l R) (hR : ∀ k a, R' k a ↔ R k a) : Roster l R' where
  nodup := h.nodup
  mem_iff b := by simp only [h.mem_iff, hR]
  unique k k' b hk hk' := h.unique k k' b ((hR k b).mp hk) ((hR k' b).mp hk')

/-- `k` takes the name `a`, which nobody holds. -/
theorem add (h : Roster l R) (ha : a ∉ l) (hR : ∀ j b, R' j b ↔ j = k ∧ b = a ∨ R j b) :
    Roster (a :: l) R' where
  nodup := List.nodup_cons.mpr ⟨ha, h.nodup⟩
  mem_iff b := by
    rw [List.mem_cons, h.mem_iff]
    constructor
    · rintro (rfl | ⟨j, hj⟩)
      · exact ⟨k, (hR k b).mpr (.inl ⟨rfl, rfl⟩)⟩
      · exact ⟨j, (hR j b).mpr (.inr hj)⟩
    · rintro ⟨j, hj⟩
      rcases (hR j b).mp hj with ⟨-, rfl⟩ | hj
      · exact .inl rfl
      · exact .inr ⟨j, hj⟩
  unique i j b hi hj := by
    have hno : ∀ m, ¬ R m a := fun m hm => ha ((h.mem_iff a).mpr ⟨m, hm⟩)
    rcases (hR i b).mp hi with ⟨rfl, rfl⟩ | hi
    · exact ((hR j b).mp hj).elim (fun e => e.1.symm) fun hj => absurd hj (hno j)
    · rcases (hR j b).mp hj with ⟨-, rfl⟩ | hj
      · exact absurd hi (hno i)
      · exact h.unique i j b hi hj

/-- `k` gives up its name `a`. -/
theorem remove [BEq α] [LawfulBEq α] (h : Roster l R) (hk : R k a)
    (hR : ∀ j b, R' j b ↔ R j b ∧ j ≠ k) (hfun : ∀ b, R k b → b = a) : Roster (l.erase a) R' where
  nodup := h.nodup.erase a
  mem_iff b := by
    rw [h.nodup.mem_erase_iff, h.mem_iff]
    constructor
    · rintro ⟨hne, j, hj⟩
      exact ⟨j, (hR j b).mpr ⟨hj, fun e => hne (hfun b (e ▸ hj))⟩⟩
    · rintro ⟨j, hj⟩
      obtain ⟨hj, hne⟩ := (hR j b).mp hj
      refine ⟨?_, j, hj⟩
      rintro rfl
      exact hne (h.unique j k b hj hk)
  unique i j b hi hj := h.unique i j b ((hR i b).mp hi).1 ((hR j b).mp hj).1

end Roster
