import Std.Data.ExtTreeMap

namespace LineSearch

structure Index (κ α : Type) [Ord κ] where
  entries : Std.ExtTreeMap κ (List α)

namespace Index

variable {κ α : Type} [Ord κ] [Std.TransOrd κ]

def find (i : Index κ α) (k : κ) : List α := i.entries.getD k []

def file (key : α → κ) (a : α) (i : Index κ α) : Index κ α :=
  ⟨i.entries.insert (key a) (a :: i.find (key a))⟩

def ofList (key : α → κ) (items : List α) : Index κ α := items.foldr (file key) ⟨∅⟩

variable [Std.LawfulEqOrd κ] [DecidableEq κ]

theorem find_file (key : α → κ) (a : α) (i : Index κ α) (k : κ) :
    (file key a i).find k = if key a = k then a :: i.find k else i.find k := by
  simp only [find, file, Std.ExtTreeMap.getD_insert, Std.LawfulEqOrd.compare_eq_iff_eq]
  split
  · next h => rw [h]
  · rfl

theorem find_ofList (key : α → κ) (items : List α) (k : κ) :
    (ofList key items).find k = items.filter (fun a ↦ key a = k) := by
  induction items with
  | nil => simp [ofList, find]
  | cons a items ih =>
    rw [ofList, List.foldr_cons, find_file, ← ofList, ih, List.filter_cons]
    simp only [decide_eq_true_eq]

theorem mem_find_ofList {key : α → κ} {items : List α} {k : κ} {a : α} :
    a ∈ (ofList key items).find k ↔ a ∈ items ∧ key a = k := by
  simp [find_ofList]

end Index

end LineSearch
