namespace LineSearch.Alphabet

/-- The symbol that a pattern writes for the empty text. -/
def emptySign : Char := '-'

def isSupported (c : Char) : Bool :=
  c == '\t' || (' ' ≤ c && c ≤ '~')

def symbols : List Char :=
  (List.range 95).map (fun n ↦ Char.ofNat (' '.toNat + n)) ++ ['\t']

theorem length_symbols : symbols.length = 96 := by decide

theorem nodup_symbols : symbols.Nodup := by decide +kernel

theorem all_isSupported_symbols : symbols.all isSupported := by decide +kernel

theorem isSupported_of_mem_symbols {c : Char} (h : c ∈ symbols) : isSupported c :=
  List.all_eq_true.mp all_isSupported_symbols c h

theorem mem_symbols_of_isSupported {c : Char} (h : isSupported c) : c ∈ symbols := by
  simp only [isSupported, Bool.or_eq_true, beq_iff_eq, Bool.and_eq_true, decide_eq_true_eq] at h
  rcases h with rfl | ⟨hlow, hhigh⟩
  · simp [symbols]
  · have hl : 32 ≤ c.toNat := UInt32.le_iff_toNat_le.mp hlow
    have hh : c.toNat ≤ 126 := UInt32.le_iff_toNat_le.mp hhigh
    simp only [symbols, List.mem_append, List.mem_map, List.mem_range]
    exact Or.inl ⟨c.toNat - 32, by omega, by
      rw [show ' '.toNat + (c.toNat - 32) = c.toNat by simp; omega, Char.ofNat_toNat]⟩

theorem mem_symbols {c : Char} : c ∈ symbols ↔ isSupported c :=
  ⟨isSupported_of_mem_symbols, mem_symbols_of_isSupported⟩

end LineSearch.Alphabet
