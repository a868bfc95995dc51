import Mathlib

/-!
# Programs that ask for comparisons

A program that sorts asks which of two elements comes first, and goes on as
the answer tells. Here such a program is the tree of its questions (`Query`).
Given a comparison function, all questions are answered alike and the program
has a result (`Query.run`); but the tree can also be kept in the state of a
system and answered one question at a time, so that the answers may change
under the program.
-/

/-- **A program that asks for comparisons** of elements of `α`, with a result
in `β`. -/
inductive Query (α β : Type) where
  | done (result : β)
  | ask (a b : α) (next : Bool → Query α β)

namespace Query

variable {α β γ : Type}

/-- One program after another. -/
def bind : Query α β → (β → Query α γ) → Query α γ
  | done result, f => f result
  | ask a b next, f => ask a b fun answer => (next answer).bind f

/-- A function of the result. -/
def map (f : β → γ) (q : Query α β) : Query α γ := q.bind fun result => done (f result)

/-- **The result** if all questions are answered by one function. -/
def run (less : α → α → Bool) : Query α β → β
  | done result => result
  | ask a b next => (next (less a b)).run less

section

variable (less : α → α → Bool)

@[simp] theorem run_done (result : β) : (done result : Query α β).run less = result := rfl

@[simp] theorem run_ask (a b : α) (next : Bool → Query α β) :
    (ask a b next).run less = (next (less a b)).run less := rfl

@[simp] theorem run_bind (q : Query α β) (f : β → Query α γ) :
    (q.bind f).run less = (f (q.run less)).run less := by
  induction q with
  | done result => rfl
  | ask a b next ih => exact ih (less a b)

@[simp] theorem run_map (f : β → γ) (q : Query α β) : (q.map f).run less = f (q.run less) :=
  run_bind less q _

end

end Query
