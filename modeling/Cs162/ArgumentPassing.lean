import Cs162.Arguments

/-!
# Passing the arguments

The tokens that `strtok_r` cuts off are the words of the line (`splitLine_spec`), and
whatever strings the array `args` points to, the stack that is built from them is one
that an entry point in C reads back as these strings (`pushArguments_passes`). Between
the two, the pointers have to survive the loading of the program. Those within the
block of `args` do. So the arguments arrive, whatever the rest of the kernel does,
exactly if the block has room for all of them.
-/

namespace Pintos

open ByteMemory (AgreeOutside)

variable {m : ByteMemory} {s args argc fuel : ℕ} {line rest w : List UInt8}

/-! ## Words -/

theorem words_spaces {sp : List UInt8} (hsp : ∀ c ∈ sp, c = 32) (rest : List UInt8) :
    words (sp ++ rest) = words rest := by
  induction sp with
  | nil => rfl
  | cons c sp ih =>
    rw [hsp c List.mem_cons_self, ← ih fun d hd => hsp d (List.mem_cons_of_mem c hd)]
    unfold words
    rw [List.cons_append, List.splitOnP_cons_eq_if_modifyHead, if_pos (by decide),
      List.filter_cons_of_neg (by simp)]

theorem words_append_space (hne : w ≠ []) (hw : ∀ c ∈ w, c ≠ 32) (rest : List UInt8) :
    words (w ++ 32 :: rest) = w :: words rest := by
  unfold words
  rw [List.splitOnP_append_cons_of_forall_mem (fun c hc => by simpa using hw c hc) 32 (by decide),
    List.filter_cons_of_pos (by simpa using hne)]

theorem words_eq_singleton (hne : w ≠ []) (hw : ∀ c ∈ w, c ≠ 32) : words w = [w] := by
  unfold words
  rw [List.splitOnP_eq_singleton fun c hc => by simpa using hw c hc,
    List.filter_cons_of_pos (by simpa using hne), List.filter_nil]

theorem words_nil : words [] = [] := by decide

/-- **The first word of a line**, if it has one. -/
theorem line_cases (line : List UInt8) : (∀ c ∈ line, c = 32) ∧ words line = []
      ∨ ∃ sp w, (∀ c ∈ sp, c = 32) ∧ w ≠ [] ∧ (∀ c ∈ w, c ≠ 32)
        ∧ (line = sp ++ w ∧ words line = [w]
          ∨ ∃ rest, line = sp ++ (w ++ 32 :: rest) ∧ words line = w :: words rest) := by
  have hsp : ∀ c ∈ line.takeWhile (· == 32), c = 32 := fun c hc => by
    simpa using List.mem_takeWhile_imp hc
  have hline := List.takeWhile_append_dropWhile (p := (· == (32 : UInt8))) (l := line)
  generalize line.takeWhile (· == 32) = sp at hsp hline
  cases htail : line.dropWhile (· == 32) with
  | nil =>
    rw [htail, List.append_nil] at hline
    subst hline
    refine .inl ⟨hsp, ?_⟩
    rw [← List.append_nil sp, words_spaces hsp, words_nil]
  | cons d tail =>
    have hd : d ≠ 32 := by
      have hfirst := List.head?_dropWhile_not (· == (32 : UInt8)) line
      rw [htail] at hfirst
      simpa using hfirst
    have hw : ∀ c ∈ (d :: tail).takeWhile (· != 32), c ≠ 32 := fun c hc => by
      simpa using List.mem_takeWhile_imp hc
    have hne : (d :: tail).takeWhile (· != 32) ≠ [] := by
      rw [List.takeWhile_cons_of_pos (by simpa using hd)]
      exact List.cons_ne_nil _ _
    have hsplit := List.takeWhile_append_dropWhile (p := (· != (32 : UInt8))) (l := d :: tail)
    rw [htail] at hline
    generalize (d :: tail).takeWhile (· != 32) = w at hw hne hsplit
    refine .inr ⟨sp, w, hsp, hne, hw, ?_⟩
    cases hrest : (d :: tail).dropWhile (· != 32) with
    | nil =>
      rw [hrest, List.append_nil] at hsplit
      rw [← hsplit] at hline
      subst hline
      exact .inl ⟨rfl, (words_spaces hsp w).trans (words_eq_singleton hne hw)⟩
    | cons c rest =>
      have hc : c = 32 := by
        have hfirst := List.head?_dropWhile_not (· != (32 : UInt8)) (d :: tail)
        rw [hrest] at hfirst
        simpa using hfirst
      rw [hrest, hc] at hsplit
      rw [← hsplit] at hline
      subst hline
      exact .inr ⟨rest, rfl, (words_spaces hsp _).trans (words_append_space hne hw rest)⟩

/-! ## Tokens -/

/-- A pointer moves over bytes that meet a condition. -/
theorem skipWhile_eq {p : UInt8 → Bool} {l : List UInt8} (hl : m.Holds s l)
    (hp : ∀ c ∈ l, p c = true) (hstop : p (m (s + l.length)) = false) (hfuel : l.length < fuel) :
    skipWhile m p fuel s = some (s + l.length) := by
  induction l generalizing s fuel with
  | nil =>
    cases fuel with
    | zero => cases hfuel
    | succ fuel =>
      unfold skipWhile
      rw [if_neg (by simpa using hstop)]
      rfl
  | cons c l ih =>
    cases fuel with
    | zero => cases hfuel
    | succ fuel =>
      have hlength : s + (c :: l).length = s + 1 + l.length := by
        rw [List.length_cons]
        omega
      rw [hlength] at hstop ⊢
      unfold skipWhile
      rw [hl.1, if_pos (hp c List.mem_cons_self)]
      exact ih hl.2 (fun d hd => hp d (List.mem_cons_of_mem c hd)) hstop
        (Nat.lt_of_succ_lt_succ hfuel)

theorem strlenAt_eq (hw : m.Holds s (w ++ [0])) (hnul : 0 ∉ w) (hlen : w.length < pgSize) :
    strlenAt m s = some w.length := by
  obtain ⟨hbytes, hend, -⟩ := ByteMemory.holds_append.mp hw
  unfold strlenAt
  rw [skipWhile_eq hbytes (fun c hc => ?_) (by rw [hend]; rfl) hlen]
  · simp
  · exact bne_iff_ne.mpr fun heq => hnul (heq ▸ hc)

theorem strchr_space (c : UInt8) : strchr space c = true ↔ c = 32 ∨ c = 0 := by
  unfold strchr space CString.stored
  simp

/-- At the end of the line there is no token. -/
theorem strtokR_spaces (hline : m.Holds s (line ++ [0])) (hsp : ∀ c ∈ line, c = 32)
    (hlen : line.length < pgSize) : strtokR m space s = some ⟨none, s + line.length, m⟩ := by
  obtain ⟨hbytes, hend, -⟩ := ByteMemory.holds_append.mp hline
  unfold strtokR
  rw [skipWhile_eq hbytes (fun c hc => ?_) (by rw [hend]; simp) hlen]
  · show (if m (s + line.length) = 0 then _ else _) = _
    rw [if_pos hend]
  · rw [hsp c hc]
    decide

/-- **The first token**: it is ended in place, unless the line ends there. -/
theorem strtokR_token {sp : List UInt8} {stop : UInt8} (hsp : ∀ c ∈ sp, c = 32) (hne : w ≠ [])
    (hw : ∀ c ∈ w, c ≠ 32) (hnul : 0 ∉ w) (hstop : stop = 32 ∨ stop = 0)
    (hline : m.Holds s (sp ++ (w ++ [stop]))) (hlen : sp.length + w.length < pgSize) :
    strtokR m space s = some (if stop = 0
      then ⟨some (s + sp.length), s + sp.length + w.length, m⟩
      else ⟨some (s + sp.length), s + sp.length + w.length + 1,
        Function.update m (s + sp.length + w.length) 0⟩) := by
  obtain ⟨hspaces, hrest⟩ := ByteMemory.holds_append.mp hline
  obtain ⟨hbytes, hend, -⟩ := ByteMemory.holds_append.mp hrest
  have hfirst : ∃ c ∈ w, m (s + sp.length) = c := by
    cases w with
    | nil => exact absurd rfl hne
    | cons c w => exact ⟨c, List.mem_cons_self, hbytes.1⟩
  obtain ⟨c, hc, hfirst⟩ := hfirst
  have hc0 : c ≠ 0 := fun heq => hnul (heq ▸ hc)
  have hnot {c : UInt8} (hc : c ∈ w) : strchr space c = false := by
    rw [← Bool.not_eq_true, strchr_space]
    exact fun hor => hor.elim (hw c hc) fun heq => hnul (heq ▸ hc)
  have hskip : skipWhile m (fun c => strchr space c && c != 0) pgSize s = some (s + sp.length) := by
    refine skipWhile_eq hspaces (fun d hd => ?_) ?_ (by omega)
    · rw [hsp d hd]
      decide
    · rw [hfirst, hnot hc]
      rfl
  have hover : skipWhile m (fun c => !strchr space c) pgSize (s + sp.length)
      = some (s + sp.length + w.length) := by
    refine skipWhile_eq hbytes (fun d hd => ?_) ?_ (by omega)
    · rw [hnot hd]
      rfl
    · rw [hend, (strchr_space stop).mpr hstop]
      rfl
  unfold strtokR
  rw [hskip]
  show (if m (s + sp.length) = 0 then _ else _) = _
  rw [if_neg (hfirst ▸ hc0), hover]
  show (if m (s + sp.length + w.length) ≠ 0 then _ else _) = _
  rw [hend]
  by_cases hzero : stop = 0
  · rw [if_neg (not_not.mpr hzero), if_pos hzero]
  · rw [if_pos hzero, if_neg hzero]

/-- A token is cut off, and the rest of the line follows it. -/
theorem strtokR_step {sp : List UInt8} (hsp : ∀ c ∈ sp, c = 32) (hne : w ≠ [])
    (hw : ∀ c ∈ w, c ≠ 32) (hcase : line = sp ++ w ∧ rest = [] ∨ line = sp ++ (w ++ 32 :: rest))
    (hline : m.Holds s (line ++ [0])) (hnul : 0 ∉ line) (hlen : line.length < pgSize) :
    ∃ save m', strtokR m space s = some ⟨some (s + sp.length), save, m'⟩
      ∧ AgreeOutside s line.length m m' ∧ m'.Holds (s + sp.length) (w ++ [0])
      ∧ m'.Holds save (rest ++ [0]) ∧ save + rest.length = s + line.length
      ∧ (rest = [] ∧ s + sp.length + w.length ≤ save ∨ s + sp.length + w.length < save) := by
  rcases hcase with ⟨rfl, rfl⟩ | rfl
  · -- the line ends with the token
    rw [List.append_assoc] at hline
    have hnulw : 0 ∉ w := fun h => hnul (List.mem_append_right sp h)
    rw [List.length_append] at hlen
    have htok := strtokR_token hsp hne hw hnulw (.inr rfl) hline hlen
    rw [if_pos rfl] at htok
    obtain ⟨-, htoken⟩ := ByteMemory.holds_append.mp hline
    refine ⟨_, m, htok, fun _ _ => rfl, htoken, ?_, ?_, .inl ⟨rfl, le_rfl⟩⟩
    · exact (ByteMemory.holds_append.mp htoken).2
    · rw [List.length_append, List.length_nil]
      omega
  · -- a space follows it, and becomes its terminator
    have hnulw : 0 ∉ w := fun h => hnul (List.mem_append_right sp (List.mem_append_left _ h))
    have hsplit : sp ++ (w ++ 32 :: rest) ++ [0] = (sp ++ (w ++ [32])) ++ (rest ++ [0]) := by simp
    rw [hsplit] at hline
    simp only [List.length_append, List.length_cons] at hlen
    obtain ⟨hfront, hback⟩ := ByteMemory.holds_append.mp hline
    have htok := strtokR_token hsp hne hw hnulw (.inl rfl) hfront (by omega)
    rw [if_neg (by decide)] at htok
    obtain ⟨-, htoken⟩ := ByteMemory.holds_append.mp hfront
    have hother : AgreeOutside (s + sp.length + w.length) 1 m
        (Function.update m (s + sp.length + w.length) 0) :=
      fun x hx => Function.update_of_ne (by omega) ..
    refine ⟨_, _, htok, hother.mono (by omega) ?_, ?_, ?_, ?_, .inr (Nat.lt_succ_self _)⟩
    · simp only [List.length_append, List.length_cons]
      omega
    · refine ByteMemory.holds_append.mpr ⟨?_, Function.update_self .., trivial⟩
      exact hother.holds (ByteMemory.holds_append.mp htoken).1 (.inr le_rfl)
    · refine hother.holds ?_ (.inl le_rfl)
      have haddr : s + (sp ++ (w ++ [32])).length = s + sp.length + w.length + 1 := by
        simp only [List.length_append, List.length_singleton]
        omega
      rwa [haddr] at hback
    · simp only [List.length_append, List.length_cons]
      omega

/-! ## The loop over the tokens -/

/-- **The line is split into its words**: `args` gets a pointer to each of them. By
induction on the number of turns; the memory changes only within the line and within
the part of `args` that is filled. -/
theorem splitLine_spec (hline : m.Holds s (line ++ [0])) (hnul : 0 ∉ line)
    (hlen : line.length < pgSize) (hfuel : line.length < fuel)
    (hapart : args + 4 * (argc + (words line).length) ≤ s ∨ s + line.length < args + 4 * argc)
    (haddr : s + line.length < 256 ^ 4) :
    ∃ m', splitLine args fuel m s argc = some (m', argc + (words line).length)
      ∧ (∀ x, ¬ (s ≤ x ∧ x < s + line.length) →
        ¬ (args + 4 * argc ≤ x ∧ x < args + 4 * (argc + (words line).length)) → m' x = m x)
      ∧ ∀ i w, (words line)[i]? = some w → ∃ p, m'.load 4 (args + 4 * (argc + i)) = p
        ∧ s ≤ p ∧ p + w.length ≤ s + line.length ∧ m'.Holds p (w ++ [0]) := by
  induction fuel generalizing m s argc line with
  | zero => cases hfuel
  | succ fuel ih =>
    rcases line_cases line with ⟨hsp, hnone⟩ | ⟨sp, w, hsp, hne, hw, hcase⟩
    · refine ⟨m, ?_, fun _ _ _ => rfl, ?_⟩
      · unfold splitLine
        rw [strtokR_spaces hline hsp hlen, hnone]
        rfl
      · rw [hnone]
        exact fun i w hi => by cases hi
    · obtain ⟨rest, hcase, hwords⟩ : ∃ rest,
          (line = sp ++ w ∧ rest = [] ∨ line = sp ++ (w ++ 32 :: rest))
            ∧ words line = w :: words rest := by
        rcases hcase with ⟨heq, hwords⟩ | ⟨rest, heq, hwords⟩
        · exact ⟨[], .inl ⟨heq, rfl⟩, hwords⟩
        · exact ⟨rest, .inr heq, hwords⟩
      obtain ⟨save, m₁, htok, hagree, htoken, hrest, hsave, hbehind⟩ :=
        strtokR_step hsp hne hw hcase hline hnul hlen
      have hpos : 0 < w.length := List.length_pos_iff.mpr hne
      have hnulRest : 0 ∉ rest := by
        rcases hcase with ⟨-, rfl⟩ | rfl
        · exact List.not_mem_nil
        · exact fun h => hnul (List.mem_append_right sp
            (List.mem_append_right w (List.mem_cons_of_mem 32 h)))
      have hcount : (words line).length = (words rest).length + 1 := by
        rw [hwords, List.length_cons]
      rw [hcount] at hapart ⊢
      have hstore := ByteMemory.agreeOutside_store m₁ 4 (args + 4 * argc) (s + sp.length)
      have hrest' : (m₁.store 4 (args + 4 * argc) (s + sp.length)).Holds save (rest ++ [0]) := by
        refine hstore.holds hrest ?_
        rw [List.length_append, List.length_singleton]
        omega
      have hapart' : args + 4 * (argc + 1 + (words rest).length) ≤ save
          ∨ save + rest.length < args + 4 * (argc + 1) := by
        omega
      obtain ⟨m', hrun, hframe, hentries⟩ := ih hrest' hnulRest (by omega) (by omega) hapart'
        (by omega)
      refine ⟨m', ?_, fun x hx hx' => ?_, fun i v hi => ?_⟩
      · unfold splitLine
        rw [htok]
        refine hrun.trans ?_
        rw [Nat.add_assoc, Nat.add_comm 1]
      · rw [hframe x (by omega) (by omega), hstore x (by omega), hagree x hx]
      · rw [hwords] at hi
        cases i with
        | zero =>
          cases hi
          rw [Nat.add_zero]
          refine ⟨s + sp.length, ?_, by omega, by omega, ?_⟩
          · refine (ByteMemory.load_congr fun x hx hlt => hframe x ?_ (by omega)).trans ?_
            · omega
            · rw [ByteMemory.load_store, Nat.mod_eq_of_lt (by omega)]
          · have hkept := hstore.holds htoken (by
              rw [List.length_append, List.length_singleton]
              omega)
            refine hkept.copied fun i hi => hframe _ ?_ ?_
            · rw [List.length_append, List.length_singleton] at hi
              rcases hbehind with ⟨rfl, -⟩ | hlt
              · exact fun hnot => absurd (hnot.1.trans_lt hnot.2) (Nat.lt_irrefl _)
              · omega
            · rw [List.length_append, List.length_singleton] at hi
              omega
        | succ i =>
          obtain ⟨p, hp, hle, hbound, hholds⟩ := hentries i v hi
          refine ⟨p, ?_, by omega, by omega, hholds⟩
          rw [← hp, Nat.add_assoc argc 1 i, Nat.add_comm 1 i]

/-! ## The stack -/

/-- `args` points to the strings, as the kernel's memory is now. -/
def PointsTo (m : ByteMemory) (args : ℕ) (ws : List (List UInt8)) : Prop :=
  ∀ i w, ws[i]? = some w →
    m.Holds (m.load 4 (args + 4 * i)) (w ++ [0]) ∧ 0 ∉ w ∧ w.length < pgSize

theorem stringsSize_take_succ {ws : List (List UInt8)} {i : ℕ} (hi : ws[i]? = some w) :
    stringsSize (ws.take (i + 1)) = stringsSize (ws.take i) + (w.length + 1) := by
  unfold stringsSize
  rw [List.take_add_one, hi]
  simp

/-- **The strings are copied** from the last to the first. By induction on how many are
left; those that have been copied lie above. -/
theorem pushStrings_spec {ws : List (List UInt8)} (hargs : PointsTo m args ws) {i : ℕ}
    (hi : i ≤ ws.length) {s : UserStack} (argAddress : ℕ → ℕ)
    (hesp : stringsSize (ws.take i) ≤ s.esp) :
    ∃ s' address, pushStrings m args i s argAddress = some (s', address)
      ∧ s'.esp + stringsSize (ws.take i) = s.esp
      ∧ AgreeOutside s'.esp (stringsSize (ws.take i)) s.memory s'.memory
      ∧ (∀ j w, j < i → ws[j]? = some w → s'.memory.Holds (address j) (w ++ [0])
        ∧ s'.esp ≤ address j ∧ address j + (w.length + 1) ≤ s.esp)
      ∧ ∀ j, i ≤ j → address j = argAddress j := by
  induction i generalizing s argAddress with
  | zero =>
    refine ⟨s, argAddress, rfl, ?_, fun _ _ => rfl, fun _ _ hj => (Nat.not_lt_zero _ hj).elim,
      fun _ _ => rfl⟩
    rw [List.take_zero]
    rfl
  | succ i ih =>
    obtain ⟨w, hw⟩ : ∃ w, ws[i]? = some w := ⟨ws[i], List.getElem?_eq_getElem hi⟩
    obtain ⟨hholds, hnul, hlen⟩ := hargs i w hw
    rw [stringsSize_take_succ hw] at hesp ⊢
    have hcopied : (s.memory.transfer m (s.esp - (w.length + 1)) (m.load 4 (args + 4 * i))
        (w.length + 1)).Holds (s.esp - (w.length + 1)) (w ++ [0]) :=
      ByteMemory.holds_transfer hholds (by rw [List.length_append, List.length_singleton])
    have hother := ByteMemory.agreeOutside_transfer s.memory m (s.esp - (w.length + 1))
      (m.load 4 (args + 4 * i)) (w.length + 1)
    let s₁ : UserStack := ⟨s.memory.transfer m (s.esp - (w.length + 1)) (m.load 4 (args + 4 * i))
      (w.length + 1), s.esp - (w.length + 1)⟩
    obtain ⟨s', address, hrun, hesp', hagree, hstrings, hsame⟩ := ih (Nat.le_of_succ_le hi)
      (s := s₁) (Function.update argAddress i s₁.esp) (by show _ ≤ s.esp - (w.length + 1); omega)
    have hesp₁ : s₁.esp = s.esp - (w.length + 1) := rfl
    refine ⟨s', address, ?_, by omega, ?_, fun j v hj hv => ?_, fun j hj => ?_⟩
    · unfold pushStrings
      dsimp only
      rw [strlenAt_eq hholds hnul hlen]
      exact hrun
    · refine fun x hx => (hagree x ?_).trans (hother x ?_)
      · omega
      · omega
    · rcases Nat.lt_succ_iff_lt_or_eq.mp hj with hj | rfl
      · obtain ⟨hh, hle, hbound⟩ := hstrings j v hj hv
        exact ⟨hh, hle, by omega⟩
      · rw [hw] at hv
        cases hv
        have haddress : address j = s₁.esp := by
          rw [hsame j le_rfl, Function.update_self]
        rw [haddress]
        refine ⟨hagree.holds hcopied (.inl (by omega)), by omega, by omega⟩
    · rw [hsame j (by omega), Function.update_of_ne (by omega)]

/-- **The addresses are pushed** from the last to the first. -/
theorem pushAddresses_spec (argAddress : ℕ → ℕ) {i : ℕ} {s : UserStack} (hesp : 4 * i ≤ s.esp) :
    (pushAddresses argAddress i s).esp + 4 * i = s.esp
      ∧ AgreeOutside (pushAddresses argAddress i s).esp (4 * i) s.memory
        (pushAddresses argAddress i s).memory
      ∧ ∀ j < i, (pushAddresses argAddress i s).memory.load 4
          ((pushAddresses argAddress i s).esp + 4 * j) = argAddress j % 256 ^ 4 := by
  induction i generalizing s with
  | zero => exact ⟨rfl, fun _ _ => rfl, nofun⟩
  | succ i ih =>
    have hother := ByteMemory.agreeOutside_store s.memory 4 (s.esp - 4) (argAddress i)
    have hpush : (s.push (argAddress i)).esp = s.esp - 4 := rfl
    obtain ⟨hesp', hagree, hwords⟩ := ih (s := s.push (argAddress i)) (by omega)
    unfold pushAddresses
    refine ⟨by omega, fun x hx => (hagree x (by omega)).trans (hother x (by omega)),
      fun j hj => ?_⟩
    rcases Nat.lt_succ_iff_lt_or_eq.mp hj with hj | rfl
    · exact hwords j hj
    · rw [hagree.load_eq (.inl (by omega)), hesp']
      exact ByteMemory.load_store ..

theorem load_push (s : UserStack) {v : ℕ} (hv : v < 256 ^ 4) :
    (s.push v).memory.load 4 (s.push v).esp = v :=
  (ByteMemory.load_store ..).trans (Nat.mod_eq_of_lt hv)

theorem agreeOutside_push (s : UserStack) (v : ℕ) :
    AgreeOutside (s.push v).esp 4 s.memory (s.push v).memory :=
  ByteMemory.agreeOutside_store _ _ _ _

/-- **The stack holds the strings that `args` points to**, and nothing else has been
written. -/
theorem pushArguments_passes {ws : List (List UInt8)} (hargs : PointsTo m args ws) {s : UserStack}
    (hesp : imageSize ws ≤ s.esp) (hlt : s.esp < 256 ^ 4) :
    ∃ s', pushArguments m args ws.length s = some s' ∧ s'.Passes ws
      ∧ AgreeOutside (s.esp - imageSize ws) (imageSize ws) s.memory s'.memory := by
  unfold imageSize at hesp ⊢
  have htake : ws.take ws.length = ws := List.take_length
  obtain ⟨s₁, address, hstrings, hesp₁, hagree₁, hholds, -⟩ :=
    pushStrings_spec hargs le_rfl (fun _ => 0) (show stringsSize (ws.take ws.length) ≤ s.esp by
      rw [htake]
      omega)
  rw [htake] at hesp₁ hagree₁
  -- the states of the stack, one below the other
  let s₂ := s₁.push 0
  let s₃ := pushAddresses address ws.length s₂
  let s₄ := s₃.push s₃.esp
  let s₅ := s₄.push ws.length
  let s₆ := s₅.push 0
  have hesp₂ : s₂.esp = s₁.esp - 4 := rfl
  have hbelow : 4 * ws.length ≤ s₂.esp := by omega
  obtain ⟨hesp₃, hagree₃, haddresses⟩ := pushAddresses_spec address hbelow
  change s₃.esp + _ = _ at hesp₃
  change AgreeOutside s₃.esp _ _ s₃.memory at hagree₃
  change ∀ j < _, s₃.memory.load 4 (s₃.esp + 4 * j) = _ at haddresses
  have hesp₄ : s₄.esp = s₃.esp - 4 := rfl
  have hesp₅ : s₅.esp = s₄.esp - 4 := rfl
  have hesp₆ : s₆.esp = s₅.esp - 4 := rfl
  have hagree₂ : AgreeOutside s₂.esp 4 s₁.memory s₂.memory := agreeOutside_push s₁ 0
  have hagree₄ : AgreeOutside s₄.esp 4 s₃.memory s₄.memory := agreeOutside_push s₃ s₃.esp
  have hagree₅ : AgreeOutside s₅.esp 4 s₄.memory s₅.memory := agreeOutside_push s₄ ws.length
  have hagree₆ : AgreeOutside s₆.esp 4 s₅.memory s₆.memory := agreeOutside_push s₅ 0
  have htop : AgreeOutside s₆.esp 12 s₃.memory s₆.memory := fun x hx =>
    (hagree₆ x (by omega)).trans ((hagree₅ x (by omega)).trans (hagree₄ x (by omega)))
  have hargv : s₆.memory.load 4 (s₆.esp + 8) = s₃.esp := by
    rw [hagree₆.load_eq (.inl (by omega)), hagree₅.load_eq (.inl (by omega)),
      show s₆.esp + 8 = s₄.esp by omega]
    exact load_push s₃ (by omega)
  have hlower : AgreeOutside s₆.esp (s₁.esp - s₆.esp) s₁.memory s₆.memory := fun x hx =>
    (htop x (by omega)).trans ((hagree₃ x (by omega)).trans (hagree₂ x (by omega)))
  refine ⟨s₆, ?_, ⟨?_, ?_, fun i w hi => ?_, ?_⟩, fun x hx => ?_⟩
  · unfold pushArguments
    rw [hstrings]
    rfl
  · exact load_push s₅ (by decide)
  · rw [hagree₆.load_eq (.inl le_rfl), show s₆.esp + 4 = s₅.esp by omega]
    exact load_push s₄ (by omega)
  · have hlt' : i < ws.length := (List.getElem?_eq_some_iff.mp hi).1
    obtain ⟨hstring, hle, hbound⟩ := hholds i w hlt' hi
    rw [hargv, htop.load_eq (.inl (by omega)), haddresses i hlt', Nat.mod_eq_of_lt (by omega)]
    exact hlower.holds hstring (.inl (by omega))
  · rw [hargv, htop.load_eq (.inl (by omega)), hesp₃, hagree₃.load_eq (.inl (by omega))]
    exact load_push s₁ (by decide)
  · exact (hlower x (by omega)).trans (hagree₁ x (by omega))

/-! ## From the line to the stack -/

theorem mem_of_mem_words {c : UInt8} (hw : w ∈ words line) (hc : c ∈ w) : c ∈ line := by
  have hparts : ∀ l : List UInt8, ∀ w ∈ l.splitOnP (· == 32), ∀ c ∈ w, c ∈ l := by
    intro l
    induction l with
    | nil =>
      intro w hw c hc
      rw [List.splitOnP_nil, List.mem_singleton] at hw
      rwa [hw] at hc
    | cons d l ih =>
      intro w hw c hc
      rw [List.splitOnP_cons_eq_if_modifyHead] at hw
      split at hw
      · rcases List.mem_cons.mp hw with rfl | hw
        · cases hc
        · exact List.mem_cons_of_mem d (ih w hw c hc)
      · cases hsplit : l.splitOnP (· == 32) with
        | nil =>
          rw [hsplit] at hw
          cases hw
        | cons v vs =>
          rw [hsplit] at hw ih
          rcases List.mem_cons.mp hw with rfl | hw
          · refine (List.mem_cons.mp hc).elim (fun heq => heq ▸ List.mem_cons_self) fun hc => ?_
            exact List.mem_cons_of_mem d (ih v List.mem_cons_self c hc)
          · exact List.mem_cons_of_mem d (ih w (List.mem_cons_of_mem v hw) c hc)
  exact hparts line w (List.mem_of_mem_filter hw) c hc

/-- **The arguments arrive**, whatever the rest of the kernel does, and only the stack page
of the process is written. -/
def ArgumentsArrive (line : CString) : Prop :=
  ∀ m user fileName args rest, LinePlaced line fileName args m → Respects line fileName args rest →
    ∃ s, startArguments fileName args rest m user = some s ∧ s.Passes (words line.bytes)
      ∧ AgreeOutside (physBase - pgSize) pgSize user s.memory

variable {line : CString}

/-- The strings that `args` points to when the stack is built arrive. -/
theorem startArguments_passes {ws : List (List UInt8)} {fileName : ℕ}
    {rest : ByteMemory → ByteMemory} {m m' : ByteMemory}
    (hsplit : splitLine args (pgSize + 1) m fileName 0 = some (m', ws.length))
    (hargs : PointsTo (rest m') args ws) (hfits : imageSize ws ≤ pgSize) (user : ByteMemory) :
    ∃ s, startArguments fileName args rest m user = some s ∧ s.Passes ws
      ∧ AgreeOutside (physBase - pgSize) pgSize user s.memory := by
  have hpage : pgSize ≤ physBase := by decide
  obtain ⟨s, hrun, hpasses, hagree⟩ := pushArguments_passes hargs (s := ⟨user, physBase⟩)
    (hfits.trans hpage) (by show physBase < _; decide)
  refine ⟨s, ?_, hpasses, hagree.mono ?_ ?_⟩
  · unfold startArguments
    rw [hsplit]
    exact hrun
  · exact Nat.sub_le_sub_left hfits physBase
  · rw [Nat.sub_add_cancel hpage, Nat.sub_add_cancel (hfits.trans hpage)]

/-- The words of a line that is in its page. -/
theorem splitLine_words {fileName : ℕ} {m : ByteMemory} (hlen : line.strlen < pgSize)
    (hline : m.Holds fileName line.stored) (hpage : fileName + pgSize ≤ addresses)
    (hapart : args + 4 * (words line.bytes).length ≤ fileName ∨ fileName + pgSize ≤ args) :
    ∃ m', splitLine args (pgSize + 1) m fileName 0 = some (m', (words line.bytes).length)
      ∧ (∀ x, fileName + line.strlen ≤ x → x < fileName + pgSize → m' x = m x)
      ∧ ∀ i w, (words line.bytes)[i]? = some w → fileName ≤ m'.load 4 (args + 4 * i)
        ∧ m'.load 4 (args + 4 * i) + w.length < fileName + pgSize
        ∧ m'.Holds (m'.load 4 (args + 4 * i)) (w ++ [0]) := by
  have hlen' : line.bytes.length < pgSize := hlen
  have haddr : fileName + line.bytes.length < 256 ^ 4 := by
    have : addresses = 256 ^ 4 := by decide
    omega
  have hapart' : args + 4 * (0 + (words line.bytes).length) ≤ fileName
      ∨ fileName + line.bytes.length < args + 4 * 0 := by
    omega
  obtain ⟨m', hrun, hframe, hentries⟩ := splitLine_spec hline line.noNul hlen'
    (Nat.lt_succ_of_lt hlen') hapart' haddr
  rw [Nat.zero_add] at hrun
  refine ⟨m', hrun, fun x hx hlt => hframe x ?_ ?_, fun i w hi => ?_⟩
  · exact fun hin => absurd hx (Nat.not_le_of_lt hin.2)
  · omega
  · obtain ⟨p, hp, hle, hbound, hholds⟩ := hentries i w hi
    rw [Nat.zero_add] at hp
    rw [hp]
    exact ⟨hle, by omega, hholds⟩

/-- **Room for all pointers**: they survive what the rest of the kernel does. -/
theorem splitLine_pointsTo (hlen : line.strlen < pgSize)
    (hroom : 4 * (words line.bytes).length ≤ allocatedBytes (line.strlen + 1)) {m : ByteMemory}
    {fileName : ℕ} {rest : ByteMemory → ByteMemory} (hplaced : LinePlaced line fileName args m)
    (hrest : Respects line fileName args rest) :
    ∃ m', splitLine args (pgSize + 1) m fileName 0 = some (m', (words line.bytes).length)
      ∧ PointsTo (rest m') args (words line.bytes) := by
  have hapart : args + 4 * (words line.bytes).length ≤ fileName ∨ fileName + pgSize ≤ args :=
    hplaced.apart.imp_left fun hle => by omega
  obtain ⟨m', hrun, -, hentries⟩ := splitLine_words hlen hplaced.holds hplaced.page hapart
  refine ⟨m', hrun, fun i w hi => ?_⟩
  obtain ⟨hle, hlt, hholds⟩ := hentries i w hi
  have hi' : i < (words line.bytes).length := (List.getElem?_eq_some_iff.mp hi).1
  have hpointer : (rest m').load 4 (args + 4 * i) = m'.load 4 (args + 4 * i) :=
    ByteMemory.load_congr fun x hx hx' => hrest m' x (.inr (by omega))
  rw [hpointer]
  refine ⟨hholds.copied fun j hj => hrest m' _ (.inl ?_), fun hzero => ?_, by omega⟩
  · rw [List.length_append, List.length_singleton] at hj
    omega
  · exact line.noNul (mem_of_mem_words (List.mem_of_getElem? hi) hzero)

/-- The arguments arrive where there is room for the pointers. -/
theorem argumentsArrive (hlen : line.strlen < pgSize)
    (hfits : imageSize (words line.bytes) ≤ pgSize)
    (hroom : 4 * (words line.bytes).length ≤ allocatedBytes (line.strlen + 1)) :
    ArgumentsArrive line := by
  intro m user fileName args rest hplaced hrest
  obtain ⟨m', hrun, hpoints⟩ := splitLine_pointsTo hlen hroom hplaced hrest
  exact startArguments_passes hrun hpoints hfits user

/-! ## Too many pointers -/

/-- A descriptor's blocks have whole words, and no fewer bytes than were asked for. -/
theorem allocatedBytes_spec (size : ℕ) (hsize : size ≤ pgSize) :
    4 ∣ allocatedBytes size ∧ size ≤ allocatedBytes size ∧ allocatedBytes size ≤ 2 * pgSize := by
  have hdescs : ∀ d ∈ descs, 4 ∣ d.blockSize ∧ d.blockSize ≤ 2 * pgSize := by decide
  unfold allocatedBytes
  cases hdesc : descFor size with
  | some d =>
    obtain ⟨hwords, hle⟩ := hdescs d (List.mem_of_find?_eq_some hdesc)
    have hfound := List.find?_some (p := fun d : Desc => decide (size ≤ d.blockSize)) hdesc
    exact ⟨hwords, of_decide_eq_true hfound, hle⟩
  | none =>
    unfold pageCnt pgSize arenaSize addresses at *
    dsimp only
    omega

theorem imageSize_dropLast_le {ws : List (List UInt8)} (hne : ws ≠ []) :
    imageSize (ws.dropLast ++ [[]]) ≤ imageSize ws := by
  have hlast := List.dropLast_append_getLast hne
  generalize ws.getLast hne = w at hlast
  generalize ws.dropLast = vs at hlast ⊢
  rw [← hlast]
  unfold imageSize stringsSize
  simp

/-- A place for a line and its `args`. -/
theorem linePlaced_ofList (hlen : line.strlen < pgSize) :
    LinePlaced line pgSize (2 * pgSize) (.ofList line.stored pgSize) := by
  obtain ⟨-, -, hblock⟩ := allocatedBytes_spec (line.strlen + 1) hlen
  have hsmall : 2 * pgSize + 2 * pgSize ≤ addresses := by decide
  exact ⟨ByteMemory.holds_ofList line.stored pgSize, by omega, by omega, .inr (by omega)⟩

/-- **A pointer that is lost**: the last one is behind the block of `args`. The rest of the
kernel has put another pointer there, and the last argument is read as the empty
string. -/
theorem argument_lost (hlen : line.strlen < pgSize) (hfits : imageSize (words line.bytes) ≤ pgSize)
    (hroom : allocatedBytes (line.strlen + 1) < 4 * (words line.bytes).length) :
    ∃ m fileName args rest, LinePlaced line fileName args m ∧ Respects line fileName args rest
      ∧ ∀ user, ∃ s, startArguments fileName args rest m user = some s
        ∧ s.Passes ((words line.bytes).dropLast ++ [[]]) := by
  obtain ⟨hblock, -, hblock'⟩ := allocatedBytes_spec (line.strlen + 1) hlen
  have hsmall : 2 * pgSize + 2 * pgSize ≤ addresses := by decide
  have hword : addresses = 256 ^ 4 := by decide
  have hline := (linePlaced_ofList hlen).holds
  have hlast : (words line.bytes).dropLast.length = (words line.bytes).length - 1 :=
    List.length_dropLast
  have hcount : ((words line.bytes).dropLast ++ [[]]).length = (words line.bytes).length := by
    rw [List.length_append, List.length_singleton, hlast]
    omega
  have hbehind : 2 * pgSize + allocatedBytes (line.strlen + 1)
      ≤ 2 * pgSize + 4 * ((words line.bytes).length - 1) := by
    omega
  generalize hslot : 2 * pgSize + 4 * ((words line.bytes).length - 1) = slot at hbehind
  let rest (m : ByteMemory) : ByteMemory := m.store 4 slot (pgSize + line.strlen)
  have hrest (m : ByteMemory) : AgreeOutside slot 4 m (rest m) :=
    ByteMemory.agreeOutside_store _ _ _ _
  refine ⟨.ofList line.stored pgSize, pgSize, 2 * pgSize, rest,
    linePlaced_ofList hlen, fun m x hx => hrest m x (by omega), fun user => ?_⟩
  have hpage : pgSize + pgSize ≤ addresses := by omega
  have hapart : 2 * pgSize + 4 * (words line.bytes).length ≤ pgSize
      ∨ pgSize + pgSize ≤ 2 * pgSize := by
    omega
  obtain ⟨m', hrun, hkept, hentries⟩ := splitLine_words hlen hline hpage hapart
  have hpoints : PointsTo (rest m') (2 * pgSize) ((words line.bytes).dropLast ++ [[]]) := by
    intro i w hi
    by_cases hlt : i < (words line.bytes).length - 1
    · -- the pointers before the last one are as they were
      rw [List.getElem?_append_left (hlast ▸ hlt), List.getElem?_dropLast, if_pos hlt] at hi
      obtain ⟨hle, hend, hholds⟩ := hentries i w hi
      rw [(hrest m').load_eq (.inr (by omega))]
      refine ⟨(hrest m').holds hholds (.inr ?_), fun hzero => ?_, by omega⟩
      · rw [List.length_append, List.length_singleton]
        omega
      · exact line.noNul (mem_of_mem_words (List.mem_of_getElem? hi) hzero)
    · have hi' := (List.getElem?_eq_some_iff.mp hi).1
      have heq : i = (words line.bytes).dropLast.length := by omega
      rw [heq, List.getElem?_append_right le_rfl, Nat.sub_self] at hi
      cases hi
      have hpointer : (rest m').load 4 (2 * pgSize + 4 * i) = pgSize + line.strlen := by
        rw [heq, hlast, hslot]
        refine (ByteMemory.load_store ..).trans (Nat.mod_eq_of_lt (by omega))
      have hnul : m' (pgSize + line.strlen) = 0 := by
        rw [hkept _ le_rfl (by omega)]
        exact (ByteMemory.holds_append.mp hline).2.1
      rw [hpointer]
      refine ⟨⟨?_, trivial⟩, List.not_mem_nil, by decide⟩
      rw [hrest m' _ (by omega), hnul]
  have hwords : words line.bytes ≠ [] := fun hnil => by
    rw [hnil] at hroom
    exact Nat.not_lt_zero _ hroom
  rw [← hcount] at hrun
  have hpassed := startArguments_passes hrun hpoints
    ((imageSize_dropLast_le hwords).trans hfits) user
  exact hpassed.imp fun s hs => ⟨hs.1, hs.2.1⟩

/-- The strings that a stack passes are determined by it. -/
theorem UserStack.Passes.last_ne {s : UserStack} {ws : List (List UInt8)} (h : s.Passes ws)
    (h' : s.Passes (ws.dropLast ++ [[]])) (hne : ws ≠ []) : ∃ w ∈ ws, w = [] ∨ 0 ∈ w := by
  have hlast := List.dropLast_append_getLast hne
  have hplace : ws[ws.dropLast.length]? = some (ws.getLast hne) := by
    nth_rewrite 1 [← hlast]
    rw [List.getElem?_append_right le_rfl, Nat.sub_self]
    rfl
  have hplace' : (ws.dropLast ++ [[]])[ws.dropLast.length]? = some [] := by
    rw [List.getElem?_append_right le_rfl, Nat.sub_self]
    rfl
  have hholds := h.argv _ _ hplace
  have hzero := (h'.argv _ _ hplace').1
  refine ⟨ws.getLast hne, List.getLast_mem hne, ?_⟩
  generalize ws.getLast hne = w at hholds
  cases w with
  | nil => exact .inl rfl
  | cons c w =>
    refine .inr ?_
    rw [← hzero.symm.trans hholds.1]
    exact List.mem_cons_self

/-- **The arguments of every line that fits arrive exactly if the pointers fit** into the
block that `malloc` allocates for as many bytes as the line has. -/
theorem argumentsArrive_iff (hlen : line.strlen < pgSize)
    (hfits : imageSize (words line.bytes) ≤ pgSize) :
    ArgumentsArrive line
      ↔ 4 * (words line.bytes).length ≤ allocatedBytes (line.strlen + 1) := by
  refine ⟨fun harrive => ?_, argumentsArrive hlen hfits⟩
  by_contra hroom
  obtain ⟨m, fileName, args, rest, hplaced, hrest, hlost⟩ :=
    argument_lost hlen hfits (Nat.lt_of_not_le hroom)
  obtain ⟨s, hs, hpasses⟩ := hlost fun _ => 0
  obtain ⟨s', hs', hpasses', -⟩ := harrive m (fun _ => 0) fileName args rest hplaced hrest
  cases hs.symm.trans hs'
  have hwords : words line.bytes ≠ [] := fun hnil => hroom (by rw [hnil]; exact Nat.zero_le _)
  obtain ⟨w, hw, hbad⟩ := hpasses'.last_ne hpasses hwords
  rcases hbad with hempty | hzero
  · exact of_decide_eq_true (List.mem_filter.mp hw).2 hempty
  · exact line.noNul (mem_of_mem_words hw hzero)

/-- `ls  -l`, with two spaces. -/
def optionLine : CString := ⟨[108, 115, 32, 32, 45, 108], by decide⟩

theorem argumentsArrive_optionLine : ArgumentsArrive optionLine :=
  (argumentsArrive_iff (by decide) (by decide)).mpr (by decide)

/-- Five words of one letter each. -/
def lettersLine : CString := ⟨[97, 32, 98, 32, 99, 32, 100, 32, 101], by decide⟩

/-- **An argument that is lost**: five pointers do not fit into the 16 bytes that are
allocated for the line's ten, and the program is passed an empty string for `e`. -/
theorem lettersLine_lost :
    words lettersLine.bytes = [[97], [98], [99], [100], [101]]
      ∧ ∃ m fileName args rest, LinePlaced lettersLine fileName args m
        ∧ Respects lettersLine fileName args rest
        ∧ ∀ user, ∃ s, startArguments fileName args rest m user = some s
          ∧ s.Passes [[97], [98], [99], [100], []] :=
  ⟨by decide, argument_lost (by decide : lettersLine.strlen < pgSize) (by decide) (by decide)⟩

end Pintos
