/-! # Queues

First in, first out. A queue is kept as its front and its reversed back, so that adding to
the end takes no time; `toList` is what it holds, the next element first. -/

namespace LiveSheet

/-- A queue, as a front and a reversed back. -/
structure Queue (α : Type) where
  front : List α
  back : List α
deriving Inhabited

namespace Queue

variable {α : Type}

def empty : Queue α :=
  ⟨[], []⟩

instance : EmptyCollection (Queue α) :=
  ⟨empty⟩

/-- The elements, the next one first. -/
def toList (q : Queue α) : List α :=
  q.front ++ q.back.reverse

def isEmpty (q : Queue α) : Bool :=
  q.front.isEmpty && q.back.isEmpty

def length (q : Queue α) : Nat :=
  q.front.length + q.back.length

def append (q : Queue α) (elements : List α) : Queue α :=
  { q with back := elements.foldl (fun back a => a :: back) q.back }

def pop? (q : Queue α) : Option (α × Queue α) :=
  match q.front with
  | a :: front => some (a, { q with front })
  | [] =>
      match q.back.reverse with
      | a :: front => some (a, ⟨front, []⟩)
      | [] => none

@[simp] theorem toList_empty : (∅ : Queue α).toList = [] := rfl

theorem isEmpty_iff (q : Queue α) : q.isEmpty = true ↔ q.toList = [] := by
  simp [isEmpty, toList]

theorem length_eq (q : Queue α) : q.length = q.toList.length := by
  simp [length, toList]

@[simp] theorem toList_append (q : Queue α) (elements : List α) :
    (q.append elements).toList = q.toList ++ elements := by
  simp [append, toList]

/-- Taking the next element takes the head of the list. -/
theorem toList_of_pop? {q rest : Queue α} {a : α} (h : q.pop? = some (a, rest)) :
    q.toList = a :: rest.toList := by
  unfold pop? at h
  split at h
  · next front hfront =>
    cases h
    simp [toList, hfront]
  · next hfront =>
    split at h
    · next front hback =>
      cases h
      simp [toList, hfront, hback]
    · cases h

theorem pop?_eq_none_iff (q : Queue α) : q.pop? = none ↔ q.toList = [] := by
  unfold pop?
  split
  · simp_all [toList]
  · split <;> simp_all [toList]

theorem length_of_pop? {q rest : Queue α} {a : α} (h : q.pop? = some (a, rest)) :
    rest.length < q.length := by
  rw [length_eq, length_eq, toList_of_pop? h, List.length_cons]
  omega

end Queue

end LiveSheet
