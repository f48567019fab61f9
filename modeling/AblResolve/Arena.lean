/-!
Growing collections whose elements are referred to by number, from zero in the order in which
they were added. Numbers of different sorts of things have different types. `get?` is the view:
the lemmas say what each operation does to it.
-/
namespace AblResolve

/-- The sorts of things that are numbered. -/
inductive Entity where
  | node | symbol | scope | block | bufferScope | table | field | index
deriving Repr, DecidableEq, Inhabited

/-- The number of a thing among those of its sort. -/
@[ext] structure Id (e : Entity) where
  val : Nat
deriving Repr, DecidableEq, Inhabited

abbrev NodeId := Id .node
abbrev SymbolId := Id .symbol
abbrev ScopeId := Id .scope
abbrev BlockId := Id .block
abbrev BufferScopeId := Id .bufferScope
abbrev TableId := Id .table
abbrev FieldId := Id .field
abbrev IndexId := Id .index

structure Arena (e : Entity) (α : Type) where
  items : Array α := #[]
deriving Repr, DecidableEq, Inhabited

namespace Arena

variable {e : Entity} {α : Type}

def size (a : Arena e α) : Nat := a.items.size

def get? (a : Arena e α) (i : Id e) : Option α := a.items[i.val]?

/-- The number that the next element will have. -/
def next (a : Arena e α) : Id e := ⟨a.size⟩

def push (a : Arena e α) (x : α) : Arena e α := ⟨a.items.push x⟩

/-- The numbers that the next `k` elements will have. -/
def nextIds (a : Arena e α) (k : Nat) : List (Id e) := (List.range k).map fun i => ⟨a.size + i⟩

def pushAll (a : Arena e α) (xs : List α) : Arena e α := ⟨a.items ++ xs.toArray⟩

/-- Changes one element; a number not in use changes nothing. -/
def update (a : Arena e α) (i : Id e) (f : α → α) : Arena e α := ⟨a.items.modify i.val f⟩

/-- The numbers in use, in order. -/
def ids (a : Arena e α) : List (Id e) := (List.range a.size).map Id.mk

def toList (a : Arena e α) : List α := a.items.toList

@[simp] theorem size_push (a : Arena e α) (x : α) : (a.push x).size = a.size + 1 := by
  simp [size, push]

@[simp] theorem size_update (a : Arena e α) (i : Id e) (f : α → α) :
    (a.update i f).size = a.size := by
  simp [size, update]

@[simp] theorem size_pushAll (a : Arena e α) (xs : List α) :
    (a.pushAll xs).size = a.size + xs.length := by
  simp [size, pushAll]

theorem get?_isSome_iff {a : Arena e α} {i : Id e} : (a.get? i).isSome ↔ i.val < a.size := by
  simp [get?, size]

theorem ext_get? {a b : Arena e α} (h : ∀ i, a.get? i = b.get? i) : a = b := by
  obtain ⟨items⟩ := a
  obtain ⟨items'⟩ := b
  simp only [mk.injEq]
  exact Array.ext_getElem? fun i => h ⟨i⟩

theorem lt_size_of_get? {a : Arena e α} {i : Id e} {x : α} (h : a.get? i = some x) :
    i.val < a.size :=
  get?_isSome_iff.1 (by simp [h])

theorem get?_push (a : Arena e α) (x : α) (i : Id e) :
    (a.push x).get? i = if i = a.next then some x else a.get? i := by
  simp only [get?, push, next, Array.getElem?_push, Id.ext_iff, size]

theorem get?_push_of_get? {a : Arena e α} {i : Id e} {x y : α} (h : a.get? i = some y) :
    (a.push x).get? i = some y := by
  have := lt_size_of_get? h
  rw [get?_push, if_neg, h]
  intro hi
  simp only [hi, next] at this
  omega

@[simp] theorem get?_push_next (a : Arena e α) (x : α) : (a.push x).get? a.next = some x := by
  simp [get?_push]

theorem get?_pushAll (a : Arena e α) (xs : List α) (i : Id e) :
    (a.pushAll xs).get? i = if i.val < a.size then a.get? i else xs[i.val - a.size]? := by
  simp only [get?, pushAll, Array.getElem?_append, List.getElem?_toArray]
  rfl

theorem get?_pushAll_of_lt {a : Arena e α} {xs : List α} {i : Id e} (h : i.val < a.size) :
    (a.pushAll xs).get? i = a.get? i := by
  rw [get?_pushAll, if_pos h]

theorem get?_update (a : Arena e α) (i j : Id e) (f : α → α) :
    (a.update i f).get? j = if i = j then (a.get? j).map f else a.get? j := by
  simp only [get?, update, Array.getElem?_modify, Id.ext_iff]

theorem mem_ids {a : Arena e α} {i : Id e} : i ∈ a.ids ↔ i.val < a.size := by
  simp only [ids, List.mem_map, List.mem_range]
  constructor
  · rintro ⟨n, hn, rfl⟩
    exact hn
  · intro h
    exact ⟨i.val, h, rfl⟩

end Arena

end AblResolve
