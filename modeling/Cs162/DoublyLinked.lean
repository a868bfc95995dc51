import Mathlib

/-!
# Doubly linked lists

The nodes are of an arbitrary type, and a list is threaded through them by two
partial functions, one for each direction. `Linked` says that a sequence of
nodes is threaded in both directions, between a node before it and a node
behind it; it is what the edits of such lists preserve (`Linked.insert`).

What a program can see of a list is where it gets by following the links.
`walk` is that, and `Linked.walk_eq` reads the sequence off it, so that
statements about nodes that are reached need not mention the sequence.
-/

namespace DoublyLinked

variable {A : Type*}

/-- **A threaded sequence**: every node points back to the one before it and on
to the one behind it. -/
def Linked (next prev : A → Option A) : Option A → List A → Option A → Prop
  | _, [], _ => True
  | before, a :: l, after =>
    prev a = before ∧ next a = l.head?.or after ∧ Linked next prev (some a) l after

/-- Where the links lead after a number of steps. -/
def walk (next : A → Option A) (n : ℕ) (start : Option A) : Option A :=
  (fun o : Option A => o.bind next)^[n] start

/-- The nodes the links lead to. -/
def reach (next : A → Option A) (start : Option A) : Set A :=
  {a | ∃ n, walk next n start = some a}

variable {next prev next' prev' : A → Option A} {before after : Option A} {l l₁ l₂ : List A}
  {x : A}

/-- Only the links of the nodes of a sequence matter to it. -/
theorem Linked.congr (h : Linked next prev before l after)
    (hnext : ∀ a ∈ l, next' a = next a) (hprev : ∀ a ∈ l, prev' a = prev a) :
    Linked next' prev' before l after := by
  induction l generalizing before with
  | nil => exact trivial
  | cons a l ih =>
    obtain ⟨hback, hon, hrest⟩ := h
    refine ⟨(hprev a List.mem_cons_self).trans hback, (hnext a List.mem_cons_self).trans hon,
      ih hrest (fun b hb => hnext b (List.mem_cons_of_mem a hb)) fun b hb =>
        hprev b (List.mem_cons_of_mem a hb)⟩

/-- Two sequences behind each other are threaded if each is, next to the other. -/
theorem linked_append : Linked next prev before (l₁ ++ l₂) after
    ↔ Linked next prev before l₁ (l₂.head?.or after)
      ∧ Linked next prev (l₁.getLast?.or before) l₂ after := by
  induction l₁ generalizing before with
  | nil => simp [Linked]
  | cons a l₁ ih =>
    have hlast : (a :: l₁).getLast?.or before = l₁.getLast?.or (some a) := by
      rw [List.getLast?_cons]
      cases l₁.getLast? <;> rfl
    rw [List.cons_append, Linked, Linked, ih, List.head?_append, Option.or_assoc, hlast,
      and_assoc, and_assoc]

theorem Linked.next_last (h : Linked next prev before l after) (hx : x ∈ l.getLast?) :
    next x = after := by
  obtain ⟨l, rfl⟩ := List.getLast?_eq_some_iff.mp hx
  exact (linked_append.mp h).2.2.1

theorem Linked.prev_head (h : Linked next prev before l after) (hx : x ∈ l.head?) :
    prev x = before := by
  cases l with
  | nil => cases hx
  | cons a l =>
    cases hx
    exact h.1

/-- Only the links at the ends of a sequence have changed. -/
theorem Linked.ends {before' after' : Option A} (h : Linked next prev before l after)
    (hnodup : l.Nodup) (hfirst : ∀ a ∈ l.head?, prev' a = before')
    (hlast : ∀ a ∈ l.getLast?, next' a = after')
    (hprev : ∀ a ∈ l, a ∉ l.head? → prev' a = prev a)
    (hnext : ∀ a ∈ l, a ∉ l.getLast? → next' a = next a) : Linked next' prev' before' l after' := by
  induction l generalizing before before' with
  | nil => exact trivial
  | cons a l ih =>
    obtain ⟨-, hon, hrest⟩ := h
    obtain ⟨ha, hnodup⟩ := List.nodup_cons.mp hnodup
    have hothers : ∀ b ∈ l, prev' b = prev b := fun b hb => by
      refine hprev b (List.mem_cons_of_mem a hb) fun hab => ?_
      cases hab
      exact ha hb
    refine ⟨hfirst a rfl, ?_, ih hrest hnodup (fun b hb => ?_) (fun b hb => hlast b ?_)
      (fun b hb _ => hothers b hb) fun b hb hnot => hnext b (List.mem_cons_of_mem a hb) ?_⟩
    · cases l with
      | nil => exact hlast a rfl
      | cons c l =>
        refine (hnext a List.mem_cons_self fun hin => ha ?_).trans hon
        exact List.mem_of_getLast? (by simpa using hin)
    · exact (hothers b (List.mem_of_mem_head? hb)).trans (hrest.prev_head hb)
    · cases l with
      | nil => cases hb
      | cons c l => simpa using hb
    · cases l with
      | nil => cases hb
      | cons c l => simpa using hnot

/-- **Linking a node in** between two parts of a sequence: the node points to
both sides, both sides point to the node, and every other link is kept. -/
theorem Linked.insert (h : Linked next prev before (l₁ ++ l₂) after) (hnodup : (l₁ ++ l₂).Nodup)
    (hnextNew : next' x = l₂.head?.or after) (hprevNew : prev' x = l₁.getLast?.or before)
    (hnextLast : ∀ a ∈ l₁.getLast?, next' a = some x) (hprevHead : ∀ a ∈ l₂.head?, prev' a = some x)
    (hnext : ∀ a ∈ l₁ ++ l₂, a ∉ l₁.getLast? → next' a = next a)
    (hprev : ∀ a ∈ l₁ ++ l₂, a ∉ l₂.head? → prev' a = prev a) :
    Linked next' prev' before (l₁ ++ x :: l₂) after := by
  obtain ⟨h₁, h₂⟩ := linked_append.mp h
  obtain ⟨hnodup₁, hnodup₂, hdisjoint⟩ := List.nodup_append'.mp hnodup
  have hprev₁ : ∀ a ∈ l₁, prev' a = prev a := fun a ha =>
    hprev a (List.mem_append_left l₂ ha) fun hin => hdisjoint ha (List.mem_of_mem_head? hin)
  have hnext₂ : ∀ a ∈ l₂, next' a = next a := fun a ha =>
    hnext a (List.mem_append_right l₁ ha) fun hin => hdisjoint (List.mem_of_getLast? hin) ha
  refine linked_append.mpr ⟨h₁.ends hnodup₁ (fun a ha => ?_) hnextLast (fun a ha _ => hprev₁ a ha)
    fun a ha => hnext a (List.mem_append_left l₂ ha), hprevNew, hnextNew,
    h₂.ends hnodup₂ hprevHead (fun a ha => ?_) (fun a ha => hprev a (List.mem_append_right l₁ ha))
      fun a ha _ => hnext₂ a ha⟩
  · exact (hprev₁ a (List.mem_of_mem_head? ha)).trans (h₁.prev_head ha)
  · exact (hnext₂ a (List.mem_of_getLast? ha)).trans (h₂.next_last ha)

/-- **Linking a node out** from behind another one: that node and what follows point
to each other, and every other link is kept. -/
theorem Linked.remove {a : A} (h : Linked next prev before (l₁ ++ a :: x :: l₂) after)
    (hnodup : (l₁ ++ a :: x :: l₂).Nodup) (hnextNew : next' a = l₂.head?.or after)
    (hprevHead : ∀ b ∈ l₂.head?, prev' b = some a)
    (hnext : ∀ b ∈ l₁ ++ a :: x :: l₂, b ≠ a → next' b = next b)
    (hprev : ∀ b ∈ l₁ ++ a :: x :: l₂, b ∉ l₂.head? → prev' b = prev b) :
    Linked next' prev' before (l₁ ++ a :: l₂) after := by
  rw [List.append_cons] at h hnodup ⊢
  have hmem : ∀ b, b ∈ l₁ ++ [a] ∨ b ∈ l₂ → b ∈ l₁ ++ a :: x :: l₂ := by
    intro b hb
    simp only [List.mem_append, List.mem_cons] at hb ⊢
    tauto
  obtain ⟨h₁, -, -, h₂⟩ := linked_append.mp h
  obtain ⟨hnodup₁, hnodup₂, hdisjoint⟩ := List.nodup_append'.mp hnodup
  have hlast : ∀ b ∈ (l₁ ++ [a]).getLast?, b = a := fun b hb => by simpa using hb.symm
  have hprev₁ : ∀ b ∈ l₁ ++ [a], prev' b = prev b := fun b hb => hprev b (hmem b (.inl hb))
    fun hin => hdisjoint hb (List.mem_cons_of_mem x (List.mem_of_mem_head? hin))
  have hnext₂ : ∀ b ∈ l₂, next' b = next b := fun b hb => hnext b (hmem b (.inr hb)) fun heq =>
    hdisjoint (show b ∈ l₁ ++ [a] by simp [heq]) (List.mem_cons_of_mem x hb)
  refine linked_append.mpr ⟨h₁.ends hnodup₁ (fun b hb => ?_) (fun b hb => hlast b hb ▸ hnextNew)
    (fun b hb _ => hprev₁ b hb) (fun b hb hnot => hnext b (hmem b (.inl hb)) fun heq => hnot ?_),
    h₂.ends (List.nodup_cons.mp hnodup₂).2 (fun b hb => ?_) (fun b hb => ?_)
      (fun b hb => hprev b (hmem b (.inr hb))) fun b hb _ => hnext₂ b hb⟩
  · exact (hprev₁ b (List.mem_of_mem_head? hb)).trans (h₁.prev_head hb)
  · simp [heq]
  · simpa using hprevHead b hb
  · exact (hnext₂ b (List.mem_of_getLast? hb)).trans (h₂.next_last hb)

/-- **Two neighbouring parts of a sequence change places**: the ends of the four parts are
linked anew, and every other link is kept. -/
theorem Linked.swap {a b c d : List A} (h : Linked next prev before (a ++ (b ++ (c ++ d))) after)
    (hnodup : (a ++ (b ++ (c ++ d))).Nodup) (ha : a ≠ []) (hb : b ≠ []) (hc : c ≠ []) (hd : d ≠ [])
    (hnexta : ∀ x ∈ a.getLast?, next' x = c.head?) (hprevc : ∀ x ∈ c.head?, prev' x = a.getLast?)
    (hnextc : ∀ x ∈ c.getLast?, next' x = b.head?) (hprevb : ∀ x ∈ b.head?, prev' x = c.getLast?)
    (hnextb : ∀ x ∈ b.getLast?, next' x = d.head?) (hprevd : ∀ x ∈ d.head?, prev' x = b.getLast?)
    (hnext : ∀ x, x ∉ a.getLast? → x ∉ b.getLast? → x ∉ c.getLast? → next' x = next x)
    (hprev : ∀ x, x ∉ b.head? → x ∉ c.head? → x ∉ d.head? → prev' x = prev x) :
    Linked next' prev' before (a ++ (c ++ (b ++ d))) after := by
  have hor : ∀ {l : List A} {o : Option A}, l ≠ [] → l.head?.or o = l.head? := fun {l o} hl => by
    cases l with
    | nil => exact absurd rfl hl
    | cons e l => rfl
  have hor' : ∀ {l : List A} {o : Option A}, l ≠ [] → l.getLast?.or o = l.getLast? :=
    fun {l o} hl => by rw [List.getLast?_eq_some_getLast hl]; rfl
  simp only [linked_append] at h
  obtain ⟨hla, hlb, hlc, hld⟩ := h
  obtain ⟨hna, hnbcd, hda⟩ := List.nodup_append'.mp hnodup
  obtain ⟨hnb, hncd, hdb⟩ := List.nodup_append'.mp hnbcd
  obtain ⟨hnc, hnd, hdc⟩ := List.nodup_append'.mp hncd
  have hfirst : ∀ {l : List A} {x : A}, x ∈ l.head? → x ∈ l := List.mem_of_mem_head?
  have hlast : ∀ {l : List A} {x : A}, x ∈ l.getLast? → x ∈ l := List.mem_of_getLast?
  simp only [List.disjoint_append_right] at hda hdb
  obtain ⟨hab, hac, had⟩ := hda
  obtain ⟨hbc, hbd⟩ := hdb
  simp only [linked_append, hor hb, hor hc, hor hd, hor' ha, hor' hb, hor' hc, List.head?_append]
  refine ⟨hla.ends hna (fun x hx => ?_) hnexta (fun x hx hnot => ?_) fun x hx hnot => ?_,
    hlc.ends hnc hprevc hnextc (fun x hx hnot => ?_) fun x hx hnot => ?_,
    hlb.ends hnb hprevb hnextb (fun x hx hnot => ?_) fun x hx hnot => ?_,
    hld.ends hnd hprevd (fun x hx => ?_) (fun x hx hnot => ?_) fun x hx hnot => ?_⟩
  · rw [hprev x (fun h => hab (hfirst hx) (hfirst h)) (fun h => hac (hfirst hx) (hfirst h))
      fun h => had (hfirst hx) (hfirst h), hla.prev_head hx]
  · exact hprev x (fun h => hab hx (hfirst h)) (fun h => hac hx (hfirst h))
      fun h => had hx (hfirst h)
  · exact hnext x hnot (fun h => hab hx (hlast h)) fun h => hac hx (hlast h)
  · exact hprev x (fun h => hbc (hfirst h) hx) hnot fun h => hdc hx (hfirst h)
  · exact hnext x (fun h => hac (hlast h) hx) (fun h => hbc (hlast h) hx) hnot
  · exact hprev x hnot (fun h => hbc hx (hfirst h)) fun h => hbd hx (hfirst h)
  · exact hnext x (fun h => hab (hlast h) hx) hnot fun h => hbc hx (hlast h)
  · rw [hnext x (fun h => had (hlast h) (hlast hx)) (fun h => hbd (hlast h) (hlast hx))
      fun h => hdc (hlast h) (hlast hx), hld.next_last hx]
  · exact hprev x (fun h => hbd (hfirst h) hx) (fun h => hdc (hfirst h) hx) hnot
  · exact hnext x (fun h => had (hlast h) hx) (fun h => hbd (hlast h) hx) fun h => hdc (hlast h) hx

/-! ## What the links lead to -/

theorem walk_succ (n : ℕ) (start : Option A) :
    walk next (n + 1) start = (walk next n start).bind next :=
  Function.iterate_succ_apply' _ n start

theorem walk_add (m n : ℕ) (start : Option A) :
    walk next (m + n) start = walk next m (walk next n start) :=
  Function.iterate_add_apply _ m n start

/-- The links of a sequence lead through it in order, and out of it at its
end. -/
theorem Linked.walk_eq (h : Linked next prev before l none) (n : ℕ) :
    walk next n l.head? = l[n]? := by
  induction n generalizing before l with
  | zero => exact List.head?_eq_getElem?
  | succ n ih =>
    cases l with
    | nil =>
      rw [walk_succ, ih h]
      rfl
    | cons a l =>
      obtain ⟨-, hon, hrest⟩ := h
      rw [walk_add n 1]
      show walk next n (next a) = l[n]?
      rw [hon, Option.or_none]
      exact ih hrest

theorem Linked.reach_eq (h : Linked next prev before l none) :
    reach next l.head? = {a | a ∈ l} := by
  ext a
  show (∃ n, walk next n l.head? = some a) ↔ a ∈ l
  simp only [h.walk_eq]
  exact List.mem_iff_getElem?.symm

/-- A node of a sequence without repetitions stands at one place. -/
theorem place_unique (hnodup : l.Nodup) {a : A} {m n : ℕ} (hm : l[m]? = some a)
    (hn : l[n]? = some a) : m = n := by
  obtain ⟨hlt, hm⟩ := List.getElem?_eq_some_iff.mp hm
  obtain ⟨hlt', hn⟩ := List.getElem?_eq_some_iff.mp hn
  exact (hnodup.getElem_inj_iff).mp (hm.trans hn.symm)

/-- A node of a sequence without repetitions is met exactly once. -/
theorem Linked.existsUnique_walk (h : Linked next prev before l none) (hnodup : l.Nodup)
    {a : A} (ha : a ∈ l) : ∃! n, walk next n l.head? = some a := by
  obtain ⟨n, hn⟩ := List.mem_iff_getElem?.mp ha
  refine ⟨n, (h.walk_eq n).trans hn, fun m hm => ?_⟩
  exact place_unique hnodup ((h.walk_eq m).symm.trans hm) hn

theorem Linked.walk_ne_self (h : Linked next prev before l none) (hnodup : l.Nodup) {a : A}
    (ha : a ∈ l) (n : ℕ) : walk next (n + 1) (some a) ≠ some a := by
  intro hback
  obtain ⟨m, hm, hunique⟩ := h.existsUnique_walk hnodup ha
  have hlater : n + 1 + m = m := hunique (n + 1 + m) <| by
    show walk next (n + 1 + m) l.head? = some a
    rw [walk_add, hm, hback]
  omega

theorem Linked.next_getElem? (h : Linked next prev before l none) {a : A} {n : ℕ}
    (hn : l[n]? = some a) : next a = l[n + 1]? := by
  rw [← h.walk_eq (n + 1), walk_succ, h.walk_eq n, hn]
  rfl

theorem Linked.prev_getElem? (h : Linked next prev before l after) {b : A} {n : ℕ}
    (hn : l[n + 1]? = some b) : prev b = l[n]? := by
  induction l generalizing before n with
  | nil => cases hn
  | cons c l ih =>
    cases n with
    | zero =>
      cases l with
      | nil => cases hn
      | cons d l =>
        cases hn
        exact h.2.2.1
    | succ n => exact ih h.2.2 hn

/-- **The two directions are inverse** to each other within a list. -/
theorem Linked.prev_eq_some_iff (h : Linked next prev none l none) {a b : A} (hb : b ∈ l) :
    prev b = some a ↔ a ∈ l ∧ next a = some b := by
  obtain ⟨n, hn⟩ := List.mem_iff_getElem?.mp hb
  refine ⟨fun hprev => ?_, fun ⟨ha, hnext⟩ => ?_⟩
  · cases n with
    | zero =>
      have hfirst : prev b = none := by
        cases l with
        | nil => cases hn
        | cons c l =>
          cases hn
          exact h.1
      rw [hfirst] at hprev
      cases hprev
    | succ n =>
      rw [h.prev_getElem? hn] at hprev
      exact ⟨List.mem_of_getElem? hprev, (h.next_getElem? hprev).trans hn⟩
  · obtain ⟨m, hm⟩ := List.mem_iff_getElem?.mp ha
    rw [h.next_getElem? hm] at hnext
    exact (h.prev_getElem? hnext).trans hm

end DoublyLinked
