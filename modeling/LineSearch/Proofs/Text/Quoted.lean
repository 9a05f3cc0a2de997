import LineSearch.Text.Quoted

namespace LineSearch.Text

theorem digitChar_injective {m n : Nat} (hm : m < 16) (hn : n < 16)
    (h : m.digitChar = n.digitChar) : m = n := by
  have hall : ∀ m < 16, ∀ n < 16, m.digitChar = n.digitChar → m = n := by decide
  exact hall m hm n hn h

theorem digitChar_ne_lineFeed {n : Nat} (hn : n < 16) : n.digitChar ≠ '\n' := by
  have hall : ∀ n < 16, n.digitChar ≠ '\n' := by decide
  exact hall n hn

theorem hexadecimal_eq (n : Nat) :
    hexadecimal n =
      if n < 16 then [n.digitChar] else hexadecimal (n / 16) ++ [(n % 16).digitChar] :=
  Nat.toDigits_eq_if (by decide)

theorem hexadecimal_injective {m n : Nat} (h : hexadecimal m = hexadecimal n) : m = n := by
  induction m using Nat.strongRecOn generalizing n with
  | _ m ih =>
    have hne (k : Nat) : hexadecimal k ≠ [] := Nat.toDigits_ne_nil
    rw [hexadecimal_eq m, hexadecimal_eq n] at h
    split at h <;> split at h
    · next hm hn => exact digitChar_injective hm hn (List.singleton_inj.mp h)
    · simpa [hne] using congrArg List.length h
    · simpa [hne] using congrArg List.length h
    · next hm hn =>
      obtain ⟨hfront, hlast⟩ := List.append_inj' h rfl
      have hfront := ih (m / 16) (by omega) hfront
      have hlast := digitChar_injective (Nat.mod_lt m (by decide)) (Nat.mod_lt n (by decide))
        (List.singleton_inj.mp hlast)
      omega

theorem lineFeed_not_mem_hexadecimal (n : Nat) : '\n' ∉ hexadecimal n := by
  induction n using Nat.strongRecOn with
  | _ n ih =>
    rw [hexadecimal_eq]
    split
    · next hn => exact fun h ↦ digitChar_ne_lineFeed hn (List.mem_singleton.mp h).symm
    · next hn =>
      intro h
      rcases List.mem_append.mp h with h | h
      · exact ih (n / 16) (by omega) h
      · exact digitChar_ne_lineFeed (Nat.mod_lt n (by decide)) (List.mem_singleton.mp h).symm

theorem shortEscape?_injective {c d e : Char} (hc : shortEscape? c = some e)
    (hd : shortEscape? d = some e) : c = d := by
  unfold shortEscape? at hc hd
  split at hc <;> cases hc <;> split at hd <;> simp_all

theorem shortEscape?_ne_lineFeed {c e : Char} (h : shortEscape? c = some e) : e ≠ '\n' := by
  unfold shortEscape? at h
  split at h <;> cases h <;> decide

/-- What stands between the quotes: an escape has two characters, a code point at least four, and
any other character is itself. -/
theorem escaped_cases (c : Char) :
    (∃ e, shortEscape? c = some e ∧ escaped c = ['\\', e]) ∨
    escaped c = '\\' :: 'u' :: '\x7b' :: (hexadecimal c.toNat ++ ['\x7d']) ∨
    shortEscape? c = none ∧ escaped c = [c] := by
  unfold escaped
  split
  · next e he => exact Or.inl ⟨e, he, rfl⟩
  · next hnone =>
    split
    · exact Or.inr (Or.inl rfl)
    · exact Or.inr (Or.inr ⟨hnone, rfl⟩)

theorem escaped_injective {c d : Char} (h : escaped c = escaped d) : c = d := by
  rcases escaped_cases c with ⟨e, he, hc⟩ | hc | ⟨_, hc⟩ <;>
    rcases escaped_cases d with ⟨f, hf, hd⟩ | hd | ⟨_, hd⟩ <;>
    rw [hc, hd] at h
  · obtain rfl : e = f := by simpa using h
    exact shortEscape?_injective he hf
  · simp at h
  · simp at h
  · simp at h
  · have hdigits : hexadecimal c.toNat = hexadecimal d.toNat := by simpa using h
    exact Char.toNat_inj.mp (hexadecimal_injective hdigits)
  · simp at h
  · simp at h
  · simp at h
  · exact List.singleton_inj.mp h

theorem lineFeed_not_mem_escaped (c : Char) : '\n' ∉ escaped c := by
  rcases escaped_cases c with ⟨e, he, hc⟩ | hc | ⟨hnone, hc⟩ <;> rw [hc]
  · simpa using (shortEscape?_ne_lineFeed he).symm
  · simpa using lineFeed_not_mem_hexadecimal c.toNat
  · intro h
    rw [← List.mem_singleton.mp h] at hnone
    cases hnone

theorem toList_quoted (c : Char) : (quoted c).toList = '\'' :: escaped c ++ ['\''] :=
  String.toList_ofList

theorem quoted_injective {c d : Char} (h : quoted c = quoted d) : c = d := by
  rw [← String.toList_inj, toList_quoted, toList_quoted] at h
  apply escaped_injective
  simpa using h

theorem lineFeed_not_mem_quoted (c : Char) : '\n' ∉ (quoted c).toList := by
  rw [toList_quoted]
  simpa using lineFeed_not_mem_escaped c

end LineSearch.Text
