import LineSearch.Text.Lines
import Mathlib.Logic.Basic

namespace LineSearch.Text

theorem bytePieces_cons (b : UInt8) (bytes : Bytes) :
    bytePieces (b :: bytes) =
      if b = lineFeed then [] :: bytePieces bytes else extendFirst b (bytePieces bytes) := rfl

theorem lineFeed_not_mem_bytePieces (bytes : Bytes) :
    ∀ piece ∈ bytePieces bytes, lineFeed ∉ piece := by
  induction bytes with
  | nil => exact List.forall_mem_nil _
  | cons b bytes ih =>
    rw [bytePieces_cons]
    split
    · exact List.forall_mem_cons.mpr ⟨List.not_mem_nil, ih⟩
    · next hb =>
      cases hpieces : bytePieces bytes with
      | nil => simpa [extendFirst] using Ne.symm hb
      | cons piece pieces =>
        rw [hpieces, List.forall_mem_cons] at ih
        refine List.forall_mem_cons.mpr ⟨fun h ↦ ?_, ih.2⟩
        exact (List.mem_cons.mp h).elim (Ne.symm hb) ih.1

theorem length_bytePieces_le (bytes : Bytes) : (bytePieces bytes).length ≤ bytes.length := by
  induction bytes with
  | nil => exact Nat.le_refl 0
  | cons b bytes ih =>
    rw [bytePieces_cons, List.length_cons]
    split
    · exact Nat.succ_le_succ ih
    · cases hpieces : bytePieces bytes with
      | nil => simp [extendFirst]
      | cons piece pieces =>
        rw [hpieces] at ih
        exact Nat.le_succ_of_le ih

theorem bytePieces_ne_nil {bytes : Bytes} (h : bytes ≠ []) : bytePieces bytes ≠ [] := by
  cases bytes with
  | nil => exact absurd rfl h
  | cons b bytes =>
    rw [bytePieces_cons]
    cases bytePieces bytes <;> split <;> simp [extendFirst]

/-- With a line feed after each piece the pieces make up the input, which may lack the last one. -/
theorem flatMap_bytePieces (bytes : Bytes) :
    (bytePieces bytes).flatMap (· ++ [lineFeed]) =
      if bytes = [] ∨ bytes.getLast? = some lineFeed then bytes else bytes ++ [lineFeed] := by
  induction bytes with
  | nil => rfl
  | cons b bytes ih =>
    rcases eq_or_ne bytes [] with rfl | hne
    · by_cases hb : b = lineFeed <;> simp [bytePieces, extendFirst, hb]
    · have hjoin : (bytePieces (b :: bytes)).flatMap (· ++ [lineFeed]) =
          b :: (bytePieces bytes).flatMap (· ++ [lineFeed]) := by
        obtain ⟨piece, pieces, hpieces⟩ := List.exists_cons_of_ne_nil (bytePieces_ne_nil hne)
        rw [bytePieces_cons, hpieces]
        split
        · next hb => simp [hb]
        · simp [extendFirst]
      rw [hjoin, ih, List.getLast?_cons_of_ne_nil hne]
      simp only [hne, List.cons_ne_nil, false_or]
      split <;> rfl

end LineSearch.Text
