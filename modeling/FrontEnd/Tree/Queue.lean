/-! # Queues

A queue is a list to which items can be added at both ends. It is kept in two parts, the second of them last
first, so that to add items costs no more than their number. `toList` is the list that it stands for, and
each operation has one lemma about it.
-/

namespace FrontEnd

/-- A list in two parts. -/
structure Queue (α : Type) where
  front : List α
  /-- The items behind the front part, last first. -/
  back : List α := []

namespace Queue

variable {α : Type}

def toList (q : Queue α) : List α := q.front ++ q.back.reverse

def ofList (items : List α) : Queue α := { front := items }

/-- The queue with more items in front. -/
def prepend (items : List α) (q : Queue α) : Queue α := { q with front := items ++ q.front }

def append (q : Queue α) (items : List α) : Queue α := { q with back := items.reverse ++ q.back }

/-- The first item, and the queue behind it. -/
def next? : Queue α → Option (α × Queue α)
  | ⟨item :: front, back⟩ => some (item, ⟨front, back⟩)
  | ⟨[], back⟩ =>
    match back.reverse with
    | [] => none
    | item :: front => some (item, ⟨front, []⟩)

@[simp] theorem toList_ofList (items : List α) : (ofList items).toList = items := by
  simp [ofList, toList]

@[simp] theorem toList_prepend (items : List α) (q : Queue α) :
    (q.prepend items).toList = items ++ q.toList := by
  simp [prepend, toList]

@[simp] theorem toList_append (q : Queue α) (items : List α) :
    (q.append items).toList = q.toList ++ items := by
  simp [append, toList]

theorem toList_of_next? {q rest : Queue α} {item : α} (h : q.next? = some (item, rest)) :
    q.toList = item :: rest.toList := by
  obtain ⟨front, back⟩ := q
  cases front with
  | cons first front =>
    simp only [next?, Option.some.injEq, Prod.mk.injEq] at h
    obtain ⟨rfl, rfl⟩ := h
    simp [toList]
  | nil =>
    simp only [next?] at h
    split at h
    · cases h
    · next first front hb =>
      simp only [Option.some.injEq, Prod.mk.injEq] at h
      obtain ⟨rfl, rfl⟩ := h
      simp [toList, hb]

theorem next?_eq_none_iff {q : Queue α} : q.next? = none ↔ q.toList = [] := by
  obtain ⟨front, back⟩ := q
  cases front with
  | cons first front => simp [next?, toList]
  | nil =>
    simp only [next?, toList, List.nil_append]
    split
    · next hb => simp [hb]
    · next hb => simp [hb]

end Queue

end FrontEnd
