import DiamondScript.Scope

namespace DiamondScript

namespace Table

variable {α : Type}

theorem find?_cons (key : String) (a : α) (rest : Table α) (query : String) :
    find? ((key, a) :: rest) query = if query = key then some a else find? rest query := by
  rw [find?, List.lookup_cons]
  by_cases h : query = key
  · rw [if_pos h, beq_iff_eq.mpr h]
  · rw [if_neg h, beq_false_of_ne h, find?]

theorem find?_append (s t : Table α) (query : String) :
    find? (s ++ t) query = (s.find? query).or (t.find? query) :=
  List.lookup_append

theorem find?_insert (t : Table α) (name : String) (a : α) (query : String) :
    (t.insert name a).find? query = if query = name then some a else t.find? query := by
  induction t with
  | nil => rw [insert, find?_cons]
  | cons entry rest ih =>
      obtain ⟨key, b⟩ := entry
      by_cases hkey : key = name
      · rw [insert, if_pos hkey, find?_cons, find?_cons, hkey]
        split <;> rfl
      · rw [insert, if_neg hkey, find?_cons, find?_cons, ih]
        by_cases h : query = key
        · rw [if_pos h, if_pos h, if_neg fun hname => hkey (h.symm.trans hname)]
        · rw [if_neg h, if_neg h]

theorem find?_eq_map (t : Table α) (query : String) :
    t.find? query = (List.find? (fun e => e.1 == query) t).map Prod.snd := by
  induction t with
  | nil => rfl
  | cons e rest ih =>
      rw [find?_cons, List.find?_cons]
      by_cases h : query = e.1
      · rw [if_pos h, h, beq_self_eq_true, Option.map_some]
      · rw [if_neg h, beq_false_of_ne (Ne.symm h), ih]

theorem find?_foldl_insert {β : Type} (name : β → String) (value : β → α) (items : List β)
    (t : Table α) (query : String) :
    (items.foldl (fun t b => t.insert (name b) (value b)) t).find? query =
      ((items.reverse.find? fun b => name b == query).map value).or (t.find? query) := by
  induction items generalizing t with
  | nil => rfl
  | cons b rest ih =>
      rw [List.foldl_cons, ih, find?_insert, List.reverse_cons, List.find?_append]
      cases hrest : rest.reverse.find? fun b => name b == query with
      | some u => rfl
      | none =>
          by_cases h : query = name b
          · simp [h]
          · simp [h, Ne.symm h]

end Table

namespace Scope

variable (s : Scope)

theorem frames_onTop (f : Frame → Frame) :
    ∃ top rest, s.frames = top :: rest ∧ (s.onTop f).frames = f top :: rest := by
  obtain ⟨inner, root⟩ := s
  cases inner with
  | nil => exact ⟨root, [], rfl, rfl⟩
  | cons top rest => exact ⟨top, rest ++ [root], rfl, rfl⟩

theorem binding?_define_apply (name : String) (type : ValueType) (storage : Storage)
    (query : String) :
    (s.define name type storage).binding? query =
      if query = name then some ⟨type, storage⟩ else s.binding? query := by
  obtain ⟨top, rest, hframes, htop⟩ := s.frames_onTop
    fun f => { f with bindings := f.bindings.insert name ⟨type, storage⟩ }
  rw [define, binding?, htop, binding?, hframes, List.findSome?_cons, List.findSome?_cons,
    Table.find?_insert]
  by_cases h : query = name
  · rw [if_pos h, if_pos h]
  · rw [if_neg h, if_neg h]

theorem binding?_define (name : String) (type : ValueType) (storage : Storage) :
    (s.define name type storage).binding? name = some ⟨type, storage⟩ := by
  rw [binding?_define_apply, if_pos rfl]

theorem signature?_define (name : String) (type : ValueType) (storage : Storage) (query : String) :
    (s.define name type storage).signature? query = s.signature? query := by
  obtain ⟨top, rest, hframes, htop⟩ := s.frames_onTop
    fun f => { f with bindings := f.bindings.insert name ⟨type, storage⟩ }
  rw [define, signature?, htop, signature?, hframes, List.findSome?_cons, List.findSome?_cons]

theorem binding?_defineFunction (signature : Signature) (query : String) :
    (s.defineFunction signature).binding? query = s.binding? query := by
  obtain ⟨top, rest, hframes, htop⟩ := s.frames_onTop
    fun f => { f with signatures := f.signatures.insert signature.name signature }
  rw [defineFunction, binding?, htop, binding?, hframes, List.findSome?_cons, List.findSome?_cons]

theorem signature?_defineFunction (signature : Signature) (query : String) :
    (s.defineFunction signature).signature? query =
      if query = signature.name then some signature else s.signature? query := by
  obtain ⟨top, rest, hframes, htop⟩ := s.frames_onTop
    fun f => { f with signatures := f.signatures.insert signature.name signature }
  rw [defineFunction, signature?, htop, signature?, hframes, List.findSome?_cons,
    List.findSome?_cons, Table.find?_insert]
  by_cases h : query = signature.name
  · rw [if_pos h, if_pos h]
  · rw [if_neg h, if_neg h]

end Scope
end DiamondScript
