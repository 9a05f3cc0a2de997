import LineSearch.Search.Writer
import Mathlib.Logic.Basic

namespace LineSearch

open Text (Bytes)

namespace Writer

variable {w : Writer} {a b chunk : Bytes} {chunks : List Bytes} {n : Nat}

def Fits (w : Writer) (bytes : Bytes) : Prop := ∀ room ∈ w.room, bytes.length ≤ room

instance (w : Writer) (bytes : Bytes) : Decidable (w.Fits bytes) :=
  inferInstanceAs (Decidable (∀ room ∈ w.room, bytes.length ≤ room))

def taken (w : Writer) (bytes : Bytes) : Bytes := w.room.elim bytes bytes.take

/-- The writer after some bytes, whether or not there is room for all of them. -/
def after (w : Writer) (bytes : Bytes) : Writer :=
  ⟨w.written ++ w.taken bytes, w.room.map (· - bytes.length), w.fault⟩

theorem write_eq (w : Writer) (bytes : Bytes) :
    w.write bytes = (if w.Fits bytes then .ok () else .error w.fault, w.after bytes) := by
  obtain ⟨written, room, fault⟩ := w
  cases room <;> simp [write, Fits, after, taken]

theorem fits_append_iff : w.Fits (a ++ b) ↔ w.Fits a ∧ (w.after a).Fits b := by
  obtain ⟨written, room, fault⟩ := w
  cases room with
  | none => simp [Fits, after]
  | some room =>
    simp only [Fits, after, Option.map_some, Option.mem_some, forall_eq', List.length_append]
    omega

theorem fits_nil (w : Writer) : w.Fits [] := fun _ _ ↦ Nat.zero_le _

theorem after_nil (w : Writer) : w.after [] = w := by
  obtain ⟨written, room, fault⟩ := w
  cases room <;> simp [after, taken]

theorem after_append (w : Writer) (a b : Bytes) : w.after (a ++ b) = (w.after a).after b := by
  obtain ⟨written, room, fault⟩ := w
  cases room <;> simp [after, taken, List.take_append, Nat.sub_sub, ← Array.toList_inj]

theorem after_append_of_not_fits (h : ¬w.Fits a) (b : Bytes) : w.after (a ++ b) = w.after a := by
  obtain ⟨written, room, fault⟩ := w
  cases room with
  | none => simp [Fits] at h
  | some room =>
    have hroom : room - a.length = 0 := by
      simp only [Fits, Option.mem_some, forall_eq'] at h
      omega
    simp [after, taken, List.take_append, Nat.sub_add_eq, hroom]

theorem writeEach_eq (w : Writer) (chunks : List Bytes) :
    w.writeEach chunks = w.write chunks.flatten := by
  induction chunks generalizing w with
  | nil => rw [List.flatten_nil, write_eq, after_nil, if_pos w.fits_nil, writeEach]
  | cons chunk chunks ih =>
    rw [writeEach, List.flatten_cons, write_eq, write_eq]
    by_cases h : w.Fits chunk
    · simp only [h, if_true, ih, write_eq, after_append, fits_append_iff, true_and]
      rfl
    · simp only [h, if_false, after_append_of_not_fits h, fits_append_iff, false_and]

/-- As many of the chunks are begun as fit one after the other, and one more if there is one. -/
inductive Begins : Writer → List Bytes → Nat → Prop
  | nil (w : Writer) : Begins w [] 0
  | cons {w : Writer} {chunk : Bytes} {chunks : List Bytes} {n : Nat} (h : w.Fits chunk)
      (hrest : Begins (w.after chunk) chunks n) : Begins w (chunk :: chunks) (n + 1)
  | last {w : Writer} {chunk : Bytes} (h : ¬w.Fits chunk) (chunks : List Bytes) :
      Begins w (chunk :: chunks) 1

namespace Begins

theorem pos_iff (h : w.Begins chunks n) : 0 < n ↔ chunks ≠ [] := by
  cases h <;> simp

theorem le_length (h : w.Begins chunks n) : n ≤ chunks.length := by
  induction h with
  | nil w => exact Nat.le_refl 0
  | cons _ _ ih => exact Nat.succ_le_succ ih
  | last h chunks => exact Nat.succ_le_succ (Nat.zero_le _)

theorem eq_length (h : w.Begins chunks n) (hfits : w.Fits chunks.flatten) : n = chunks.length := by
  induction h with
  | nil w => rfl
  | cons _ _ ih =>
    rw [List.flatten_cons, fits_append_iff] at hfits
    rw [List.length_cons, ih hfits.2]
  | last h chunks =>
    rw [List.flatten_cons, fits_append_iff] at hfits
    exact absurd hfits.1 h

theorem exists_split (h : w.Begins chunks n) (hcut : ¬w.Fits chunks.flatten) :
    ∃ earlier chunk later, chunks = earlier ++ chunk :: later ∧ n = earlier.length + 1 ∧
      w.Fits earlier.flatten ∧ ¬w.Fits (earlier ++ [chunk]).flatten := by
  induction h with
  | nil w => exact absurd w.fits_nil hcut
  | @cons w chunk chunks n hfits _ ih =>
    rw [List.flatten_cons, fits_append_iff] at hcut
    obtain ⟨earlier, last, later, rfl, rfl, hbefore, hlast⟩ := ih (fun h ↦ hcut ⟨hfits, h⟩)
    refine ⟨chunk :: earlier, last, later, rfl, rfl, ?_, fun h ↦ hlast ?_⟩
    · rw [List.flatten_cons, fits_append_iff]
      exact ⟨hfits, hbefore⟩
    · rw [List.cons_append, List.flatten_cons, fits_append_iff] at h
      exact h.2
  | @last w chunk hfits chunks =>
    refine ⟨[], chunk, chunks, rfl, rfl, w.fits_nil, ?_⟩
    simpa using hfits

end Begins

end Writer

end LineSearch
