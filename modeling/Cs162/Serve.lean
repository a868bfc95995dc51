import Mathlib.Data.List.Basic

/-!
# Serving calls one after another

A sequential component is a function that takes a state and a call to a reply
and the next state. Its behaviour is the replies to a list of calls
(`serve`). Two components that are related by a relation that every call
keeps, and that reply alike in related states, cannot be told apart by their
replies (`serve_simulates`).
-/

namespace Transition

variable {S T C R : Type*}

/-- The replies to a list of calls, and the state they leave. -/
def serve (call : S → C → R × S) (s : S) : List C → List R × S
  | [] => ([], s)
  | c :: calls =>
    let (r, s) := call s c
    let (rs, s) := serve call s calls
    (r :: rs, s)

/-- **The rule for simulations**: what relates two components call by call
relates them over any list of calls. -/
theorem serve_simulates {call : S → C → R × S} {call' : T → C → R × T} {rel : S → T → Prop}
    {calls : List C} {s : S} {t : T} (hcall : ∀ s t, ∀ c ∈ calls, rel s t →
      (call s c).1 = (call' t c).1 ∧ rel (call s c).2 (call' t c).2) (h : rel s t) :
    (serve call s calls).1 = (serve call' t calls).1
      ∧ rel (serve call s calls).2 (serve call' t calls).2 := by
  induction calls generalizing s t with
  | nil => exact ⟨rfl, h⟩
  | cons c calls ih =>
    obtain ⟨hreply, hrel⟩ := hcall s t c List.mem_cons_self h
    obtain ⟨hreplies, hrels⟩ :=
      ih (fun s t c hc => hcall s t c (List.mem_cons_of_mem _ hc)) hrel
    exact ⟨congrArg₂ List.cons hreply hreplies, hrels⟩

end Transition
