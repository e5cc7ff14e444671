import DiamondScript.Files.Path
import Mathlib.Data.List.TakeWhile

namespace DiamondScript.Path

section

variable {name : List Char}

theorem slash_notMem_splitName (body : List Char) : '/' ∉ (splitName body).2 := by
  intro h
  have hmem := List.mem_reverse.mp h
  simpa using List.mem_takeWhile_imp hmem

theorem ne_slash_of_mem_reverse (h : '/' ∉ name) : ∀ c ∈ name.reverse, decide (c ≠ '/') = true := by
  intro c hc
  exact decide_eq_true fun heq => h (heq ▸ List.mem_reverse.mp hc)

theorem splitName_append (front : List Char) (h : '/' ∉ name) :
    (splitName (front ++ '/' :: name)).2 = name := by
  simp only [splitName, List.reverse_append, List.reverse_cons, List.append_assoc]
  rw [List.takeWhile_append_of_pos (ne_slash_of_mem_reverse h)]
  simp

theorem splitName_self (h : '/' ∉ name) : (splitName name).2 = name := by
  rw [splitName, List.takeWhile_eq_self_iff.mpr (ne_slash_of_mem_reverse h), List.reverse_reverse]

theorem splitName_append_of_mem (front : List Char) {cs : List Char} (h : '/' ∈ cs) :
    (splitName (front ++ cs)).2 = (splitName cs).2 := by
  obtain ⟨backward, rest, heq, hbackward⟩ := List.eq_append_cons_of_mem (List.mem_reverse.mpr h)
  have hcs : cs = rest.reverse ++ '/' :: backward.reverse := by
    rw [← List.reverse_reverse cs, heq]
    simp
  have hname : '/' ∉ backward.reverse := fun hmem => hbackward (List.mem_reverse.mp hmem)
  rw [hcs, ← List.append_assoc, splitName_append _ hname, splitName_append _ hname]

end

variable {p base q : Path}

/-- The name behind the last slash of a path as it is written. -/
def lastPart (p : Path) : List Char := (splitName p.toList).2

theorem join_eq_append (base q : Path) : ∃ front, join base q = front ++ q := by
  rw [join]
  split
  · exact ⟨"", by simp⟩
  · split
    · exact ⟨"", by simp⟩
    · split
      · exact ⟨base, rfl⟩
      · exact ⟨base ++ "/", rfl⟩

theorem isAbsolute_name (hslash : '/' ∉ q.toList) : isAbsolute q = false := by
  cases hq : q.toList with
  | nil => simp [isAbsolute, hq]
  | cons c cs =>
      rw [hq, List.mem_cons, not_or] at hslash
      simp [isAbsolute, hq, Ne.symm hslash.1]

theorem join_ne (hslash : '/' ∉ q.toList) (hne : q.toList ≠ []) : join base q ≠ base := by
  have hrelative := isAbsolute_name hslash
  have hpos : 0 < q.toList.length := List.length_pos_iff.mpr hne
  intro heq
  have hlength := congrArg (fun p : Path => p.toList.length) heq
  simp only [join, hrelative, Bool.false_eq_true, if_false] at hlength
  cases hlast : base.toList.getLast? with
  | none =>
      rw [hlast, List.getLast?_eq_none_iff.mp hlast] at hlength
      exact hne (List.length_eq_zero_iff.mp hlength)
  | some c =>
      rw [hlast] at hlength
      by_cases hc : c = '/'
      · simp only [if_pos hc, String.toList_append, List.length_append] at hlength
        omega
      · simp only [if_neg hc, String.toList_append, List.length_append] at hlength
        omega

theorem lastPart_join (h : '/' ∉ q.toList) : lastPart (join base q) = q.toList := by
  rw [join]
  split
  · exact splitName_self h
  · cases hlast : base.toList.getLast? with
    | none => exact splitName_self h
    | some c =>
        by_cases hc : c = '/'
        · obtain ⟨front, hfront⟩ := List.getLast?_eq_some_iff.mp hlast
          simp only [if_pos hc]
          rw [lastPart, String.toList_append, hfront, hc, List.append_assoc]
          exact splitName_append _ h
        · simp only [if_neg hc]
          rw [lastPart, String.toList_append, String.toList_append, List.append_assoc]
          exact splitName_append _ h

theorem lastPart_eq (h : (splitLead p.toList).2 ≠ []) :
    lastPart p = (splitName (splitLead p.toList).2).2 := by
  revert h
  rw [lastPart]
  fun_cases splitLead p.toList with
  | case1 rest =>
      intro _
      by_cases hslash : '/' ∈ rest
      · exact splitName_append_of_mem ['/'] hslash
      · rw [splitName_self hslash]
        exact splitName_append [] hslash
  | case2 => exact fun h => absurd rfl h
  | case3 rest => exact fun _ => splitName_append_of_mem ['.'] List.mem_cons_self
  | case4 => exact fun _ => rfl

variable {name : String}

theorem fileName?_eq_some (h : fileName? p = some name) :
    trimmed (splitLead p.toList).2 ≠ [] ∧
      name.toList = (splitName (trimmed (splitLead p.toList).2)).2 := by
  rw [fileName?] at h
  split at h
  · cases h
  · simp only at h
    split at h
    · cases h
    · cases h
      exact ⟨‹_›, String.toList_ofList⟩

/-- The last name of a path stands at its end, unless what stands there says nothing. -/
theorem lastPart_of_fileName? (h : fileName? p = some name) :
    lastPart p = name.toList ∨ isIdle (lastPart p) := by
  obtain ⟨hne, hname⟩ := fileName?_eq_some h
  have hbody : (splitLead p.toList).2 ≠ [] := fun hnil => hne (by rw [hnil]; rfl)
  rw [lastPart_eq hbody]
  by_cases hidle : isIdle (splitName (splitLead p.toList).2).2
  · exact .inr hidle
  · have htrimmed : trimmed (splitLead p.toList).2 = (splitLead p.toList).2 := by
      simp [trimmed, trimBody, hidle]
    rw [htrimmed] at hname
    exact .inl hname.symm

theorem sibling_eq_append (p : Path) (ending : String) :
    ∃ front, sibling p ending = front ++ ending := by
  rw [sibling, withFileName]
  cases hname : fileName? p with
  | none =>
    obtain ⟨front, hfront⟩ := join_eq_append p ("" ++ ending)
    exact ⟨front, by simpa using hfront⟩
  | some name =>
    obtain ⟨front, hfront⟩ := join_eq_append ((parent? p).getD "") (name ++ ending)
    exact ⟨front ++ name, by simpa [String.append_assoc] using hfront⟩

variable {ending : String}

theorem lastPart_sibling (hname : fileName? p = some name) (hslash : '/' ∉ ending.toList) :
    lastPart (sibling p ending) = name.toList ++ ending.toList := by
  have hnoSlash : '/' ∉ (name ++ ending).toList := by
    rw [String.toList_append, List.mem_append, not_or, (fileName?_eq_some hname).2]
    exact ⟨slash_notMem_splitName _, hslash⟩
  rw [sibling, withFileName]
  simp only [hname, Option.getD_some]
  rw [lastPart_join hnoSlash, String.toList_append]

theorem sibling_ne (hslash : '/' ∉ ending.toList) (hlong : 1 < ending.toList.length) :
    sibling p ending ≠ p := by
  intro heq
  cases hname : fileName? p with
  | none =>
      rw [sibling, withFileName, hname, Option.getD_none, String.empty_append] at heq
      exact join_ne hslash (List.ne_nil_of_length_pos (by omega)) heq
  | some name =>
      have hlast := lastPart_sibling hname hslash
      rw [heq] at hlast
      rcases lastPart_of_fileName? hname with hend | hidle
      · have hnil : ending.toList = [] := List.self_eq_append_right.mp (hend.symm.trans hlast)
        rw [hnil] at hlong
        exact absurd hlong (by decide)
      · have hlength : (lastPart p).length ≤ 1 := by
          have hcases : lastPart p = [] ∨ lastPart p = ['.'] := by simpa [isIdle] using hidle
          rcases hcases with h | h <;> simp [h]
        rw [hlast, List.length_append] at hlength
        omega

theorem sibling_injective {other : String} (hlength : ending.toList.length = other.toList.length)
    (heq : sibling p ending = sibling p other) : ending = other := by
  obtain ⟨front, hfront⟩ := sibling_eq_append p ending
  obtain ⟨front', hfront'⟩ := sibling_eq_append p other
  rw [hfront, hfront'] at heq
  have htext := congrArg String.toList heq
  rw [String.toList_append, String.toList_append] at htext
  exact String.toList_injective (List.append_inj_right' htext hlength)

end DiamondScript.Path
