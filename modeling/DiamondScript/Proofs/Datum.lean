import DiamondScript.Proofs.Machine

namespace DiamondScript

/-- The kinds of values that the language can hold but not make. -/
inductive Foreign where
  | loc
  | par
  | pot
  | item
  | block
  | gval
  deriving DecidableEq, Repr

inductive Datum where
  | number (x : Binary64)
  | string (t : String)
  | styledText (t : String)
  | vector (x y z : Binary64)
  | list (items : List Datum)
  | dict (entries : List (String × Datum))
  | foreign (kind : Foreign) (id : Nat)

def Foreign.base : Foreign → BaseType
  | .loc => .loc
  | .par => .par
  | .pot => .pot
  | .item => .item
  | .block => .block
  | .gval => .gval

namespace Datum

def kind : Datum → BaseType
  | .number _ => .num
  | .string _ => .str
  | .styledText _ => .txt
  | .vector .. => .vec
  | .list _ => .list
  | .dict _ => .dict
  | .foreign k _ => k.base

def elements : Datum → List Datum
  | .list items => items
  | .dict entries => entries.map Prod.snd
  | _ => []

/-- A value's kind tells how it was made, where the language can make it. -/
theorem shape (d : Datum) :
    match d.kind with
    | .num => ∃ x, d = .number x
    | .str => ∃ t, d = .string t
    | .list => ∃ items, d = .list items
    | .dict => ∃ entries, d = .dict entries
    | _ => d.elements = [] := by
  cases d with
  | number | string | list | dict => exact ⟨_, rfl⟩
  | styledText | vector => rfl
  | foreign k => cases k <;> rfl

theorem elements_eq_nil {d : Datum} (h : ValueType.isContainer d.kind = false) :
    d.elements = [] := by
  cases d with
  | list | dict => simp [kind, ValueType.isContainer] at h
  | _ => rfl

end Datum

namespace Table

variable {α : Type}

theorem mem_of_find? {t : Table α} {name : String} {a : α} (h : t.find? name = some a) :
    a ∈ t.map Prod.snd := by
  induction t with
  | nil => simp [find?] at h
  | cons e rest ih =>
      rw [find?, List.lookup_cons] at h
      rw [List.map_cons, List.mem_cons]
      split at h
      · exact .inl (Option.some.inj h).symm
      · exact .inr (ih h)

theorem mem_insert {t : Table α} {name : String} {a b : α}
    (h : b ∈ (t.insert name a).map Prod.snd) : b = a ∨ b ∈ t.map Prod.snd := by
  induction t with
  | nil => exact .inl (by simpa [insert] using h)
  | cons e rest ih =>
      obtain ⟨n, c⟩ := e
      rw [insert] at h
      split at h
      · rw [List.map_cons, List.mem_cons] at h
        exact h.imp_right (List.mem_cons_of_mem _)
      · rw [List.map_cons, List.mem_cons] at h
        rcases h with rfl | h
        · exact .inr List.mem_cons_self
        · exact (ih h).imp_right (List.mem_cons_of_mem _)

end Table

def Container.base : Container → BaseType
  | .dictionary => .dict
  | .list => .list

theorem Container.base_ne_any (container : Container) : container.base ≠ .any := by
  cases container <;> simp [base]

theorem Container.key_ne_any (container : Container) : container.key ≠ .any := by
  cases container <;> simp [key]

namespace Machine

open Codegen

theorem base_of_containerOf? {t : ValueType} {container : Container}
    (h : containerOf? t = some container) : t.base = container.base := by
  unfold containerOf? at h
  split at h
  case h_1 hb =>
    cases h
    exact hb
  case h_2 hb =>
    cases h
    exact hb
  case h_3 => cases h

/-- What differs from one place to run blocks to another: arithmetic, which position of a list
a number stands for, and what becomes of operands that an operation is not made for. -/
structure Platform where
  arithmetic : BinaryOp → Binary64 → Binary64 → Binary64
  position : Binary64 → Option Nat
  misfit : Operation → List Datum → Datum

namespace Platform

variable (p : Platform)

def binary (op : BinaryOp) : Datum → Datum → Datum
  | .number x, .number y => .number (p.arithmetic op x y)
  | l, r => p.misfit (.arithmetic op) [l, r]

def get : Container → Datum → Datum → Option Datum
  | .dictionary, .dict entries, .string key => Table.find? entries key
  | .list, .list items, .number x => (p.position x).bind fun i => items[i]?
  | container, object, key => some (p.misfit (.get container) [object, key])

/-- Sets an element. A dictionary takes any key, a list only positions that it has. -/
def set : Container → Datum → Datum → Datum → Option Datum
  | .dictionary, .dict entries, .string key, v => some (.dict (Table.insert key v entries))
  | .list, .list items, .number x, v => (p.position x).bind fun i =>
    if i < items.length then some (.list (items.set i v)) else none
  | container, object, key, v => some (p.misfit (.set container) [object, key, v])

/-- Values that may be missing. An operation on a missing value has no result. -/
def domain : Domain (Option Datum) where
  number x := some (.number x)
  string t := some (.string t)
  styledText t := some (.styledText t)
  vector x y z := some (.vector x y z)
  binary op l r := l.bind fun l => r.map fun r => p.binary op l r
  emptyDict := some (.dict [])
  mkList vs := (vs.mapM id).map .list
  get container o k := o.bind fun o => k.bind fun k => p.get container o k
  set container o k v := o.bind fun o => k.bind fun k => v.bind fun v => p.set container o k v

variable {p}

theorem binary_number {op : BinaryOp} {l r : Datum} (hl : l.kind = .num) (hr : r.kind = .num) :
    ∃ x, p.binary op l r = .number x := by
  have hl' := l.shape
  have hr' := r.shape
  rw [hl] at hl'
  rw [hr] at hr'
  obtain ⟨x, rfl⟩ := hl'
  obtain ⟨y, rfl⟩ := hr'
  exact ⟨_, rfl⟩

theorem get_mem {container : Container} {o k v : Datum} (ho : o.kind = container.base)
    (hk : k.kind = container.key) (h : p.get container o k = some v) : v ∈ o.elements := by
  have ho' := o.shape
  have hk' := k.shape
  rw [ho] at ho'
  rw [hk] at hk'
  cases container with
  | dictionary =>
      obtain ⟨entries, rfl⟩ := ho'
      obtain ⟨key, rfl⟩ := hk'
      exact Table.mem_of_find? h
  | list =>
      obtain ⟨items, rfl⟩ := ho'
      obtain ⟨x, rfl⟩ := hk'
      obtain ⟨i, -, hi⟩ := Option.bind_eq_some_iff.mp h
      exact List.mem_of_getElem? hi

theorem set_mem {container : Container} {o k v o' : Datum} (ho : o.kind = container.base)
    (hk : k.kind = container.key) (h : p.set container o k v = some o') :
    o'.kind = container.base ∧ ∀ u ∈ o'.elements, u = v ∨ u ∈ o.elements := by
  have ho' := o.shape
  have hk' := k.shape
  rw [ho] at ho'
  rw [hk] at hk'
  cases container with
  | dictionary =>
      obtain ⟨entries, rfl⟩ := ho'
      obtain ⟨key, rfl⟩ := hk'
      cases h
      exact ⟨rfl, fun u hu => Table.mem_insert hu⟩
  | list =>
      obtain ⟨items, rfl⟩ := ho'
      obtain ⟨x, rfl⟩ := hk'
      obtain ⟨i, -, hi⟩ := Option.bind_eq_some_iff.mp h
      split at hi
      · cases hi
        exact ⟨rfl, fun u hu => (List.mem_or_eq_of_mem_set hu).symm⟩
      · cases hi

end Platform

end Machine
end DiamondScript
