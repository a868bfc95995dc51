import Cs162.ArgumentPassing
import Cs162.Filesys
import Cs162.Traced

/-!
# Where the arguments are written

`start_process` works within two budgets. The array `args` was requested with as many
bytes as the line has, and gets a pointer of four bytes for every token; the stack is the
one page that `setup_stack` maps, and gets every token, a pointer to every token, and
five more words. Neither is checked. In between the program is loaded, and where that
fails nothing is put on the stack.

The code is told here once more with the places it writes to. Without them it is the code
of before (`value?_startArgumentsWriting`). The places are worked out one after the
other, and it is seen which lines keep both budgets.
-/

open ByteMemory

namespace Pintos

/-- **A write of `start_process`**: of a pointer into `args`, or of bytes to the stack. -/
inductive ArgumentWrite where
  | pointer (a : ℕ)
  | stack (a n : ℕ)
  deriving DecidableEq

/-- Code with its writes. It stops where a string has no end. -/
abbrev Writing : Type → Type := Traced Unit ArgumentWrite

/-! ## `process_execute` and `start_process` -/

/-- The line that `process_execute` hands on: `strlcpy` cuts off what does not fit into
the page. -/
def fnCopy (fileName : CString) : CString where
  bytes := fileName.bytes.take (pgSize - 1)
  noNul h := fileName.noNul (List.mem_of_mem_take h)

/-- The loop over the tokens. -/
def splitLineWriting (args : ℕ) : ℕ → ByteMemory → ℕ → ℕ → Writing (ByteMemory × ℕ)
  | 0, _, _, _ => .stop ()
  | fuel + 1, m, s, argc => do
    let t ← .ofOption () (strtokR m space s)
    match t.token with
    | none => pure (t.memory, argc)
    | some token =>
      .touch (.pointer (args + 4 * argc))
      splitLineWriting args fuel (t.memory.store 4 (args + 4 * argc) token) t.savePtr (argc + 1)

/-- A word is pushed. -/
def UserStack.pushWriting (s : UserStack) (v : ℕ) : Writing UserStack := do
  .touch (.stack (s.esp - 4) 4)
  pure (s.push v)

/-- The tokens are copied. -/
def pushStringsWriting (m : ByteMemory) (args : ℕ) :
    ℕ → UserStack → (ℕ → ℕ) → Writing (UserStack × (ℕ → ℕ))
  | 0, s, argAddress => pure (s, argAddress)
  | i + 1, s, argAddress => do
    let token := m.load 4 (args + 4 * i)
    let argLength := (← .ofOption () (strlenAt m token)) + 1
    let esp := s.esp - argLength
    .touch (.stack esp argLength)
    pushStringsWriting m args i ⟨s.memory.transfer m esp token argLength, esp⟩
      (Function.update argAddress i esp)

/-- The addresses are pushed. -/
def pushAddressesWriting (argAddress : ℕ → ℕ) : ℕ → UserStack → Writing UserStack
  | 0, s => pure s
  | i + 1, s => do pushAddressesWriting argAddress i (← s.pushWriting (argAddress i))

/-- The second half of `start_process`. -/
def pushArgumentsWriting (m : ByteMemory) (args argc : ℕ) (s : UserStack) :
    Writing UserStack := do
  let (s, argAddress) ← pushStringsWriting m args argc s fun _ => 0
  let s ← s.pushWriting 0
  let s ← pushAddressesWriting argAddress argc s
  let s ← s.pushWriting s.esp
  let s ← s.pushWriting argc
  s.pushWriting 0

/-- **`start_process`**, as far as the arguments go, with its writes; `success` is what
`load` returned. -/
def startArgumentsWriting (success : Bool) (fileName args : ℕ) (rest : ByteMemory → ByteMemory)
    (m user : ByteMemory) : Writing (Option UserStack) := do
  let (m, argc) ← splitLineWriting args (pgSize + 1) m fileName 0
  if success then do
    let s ← pushArgumentsWriting (rest m) args argc ⟨user, physBase⟩
    pure (some s)
  else pure none

/-! ## Without the writes -/

section Values

variable {m : ByteMemory} {args argc fuel i s : ℕ}

theorem value?_splitLineWriting :
    (splitLineWriting args fuel m s argc).value? = splitLine args fuel m s argc := by
  induction fuel generalizing m s argc with
  | zero => rfl
  | succ fuel ih =>
    unfold splitLineWriting splitLine
    rw [Traced.value?_bind, Traced.value?_ofOption]
    refine Option.bind_congr fun t _ => ?_
    cases t.token with
    | none => rfl
    | some token => exact ih

@[simp] theorem value?_pushWriting (s : UserStack) (v : ℕ) :
    (s.pushWriting v).value? = some (s.push v) := rfl

theorem value?_pushStringsWriting {s : UserStack} {argAddress : ℕ → ℕ} :
    (pushStringsWriting m args i s argAddress).value? = pushStrings m args i s argAddress := by
  induction i generalizing s argAddress with
  | zero => rfl
  | succ i ih =>
    unfold pushStringsWriting pushStrings
    rw [Traced.value?_bind, Traced.value?_ofOption]
    exact Option.bind_congr fun n _ => ih

theorem value?_pushAddressesWriting (argAddress : ℕ → ℕ) {s : UserStack} :
    (pushAddressesWriting argAddress i s).value? = some (pushAddresses argAddress i s) := by
  induction i generalizing s with
  | zero => rfl
  | succ i ih => exact ih

theorem value?_pushArgumentsWriting {s : UserStack} :
    (pushArgumentsWriting m args argc s).value? = pushArguments m args argc s := by
  unfold pushArgumentsWriting pushArguments
  rw [Traced.value?_bind, value?_pushStringsWriting]
  refine Option.bind_congr fun r _ => ?_
  simp only [Traced.value?_bind, value?_pushWriting, value?_pushAddressesWriting,
    Option.bind_some]

/-- **The writes are of `start_process`**: without them it is the same function. -/
theorem value?_startArgumentsWriting {fileName : ℕ} {rest : ByteMemory → ByteMemory}
    {user : ByteMemory} : (startArgumentsWriting true fileName args rest m user).value?
      = (startArguments fileName args rest m user).map some := by
  unfold startArgumentsWriting startArguments
  rw [Traced.value?_bind, value?_splitLineWriting, Option.bind_eq_bind, Option.map_bind]
  refine Option.bind_congr ?_
  rintro ⟨m', argc⟩ -
  dsimp only [Function.comp_apply]
  rw [if_pos rfl, Traced.value?_bind, value?_pushArgumentsWriting, Option.map_eq_bind]
  rfl

end Values

/-! ## The pointers -/

section Pointers

variable {m m' : ByteMemory} {args argc fuel n s : ℕ}

/-- **The pointers are written one behind the other.** By induction on the number of
turns. -/
theorem splitLineWriting_eq (h : splitLine args fuel m s argc = some (m', n)) :
    argc ≤ n ∧ splitLineWriting args fuel m s argc
      = ⟨.ok (m', n), (List.range' argc (n - argc)).map fun i => .pointer (args + 4 * i)⟩ := by
  induction fuel generalizing m s argc with
  | zero => cases h
  | succ fuel ih =>
    unfold splitLine at h
    obtain ⟨t, ht, h⟩ := Option.bind_eq_some_iff.mp h
    unfold splitLineWriting
    rw [ht, Traced.bind_of_ok (show Traced.ofOption () (some t) = ⟨.ok t, []⟩ from rfl)]
    cases htoken : t.token with
    | none =>
      rw [htoken] at h
      cases h
      refine ⟨le_rfl, ?_⟩
      rw [Nat.sub_self]
      rfl
    | some token =>
      rw [htoken] at h
      obtain ⟨hle, heq⟩ := ih h
      refine ⟨Nat.le_of_succ_le hle, ?_⟩
      dsimp only
      rw [Traced.touch_bind, heq, show n - argc = n - (argc + 1) + 1 by omega, List.range'_succ,
        List.map_cons]
      rfl

end Pointers

/-! ## The stack -/

section Stack

/-- A write to the stack lies within bounds. -/
def ArgumentWrite.StackWithin (lo hi : ℕ) : ArgumentWrite → Prop
  | .pointer _ => False
  | .stack a n => lo ≤ a ∧ a + n ≤ hi

variable {m : ByteMemory} {args lo hi : ℕ} {s : UserStack}

theorem pushWriting_spec (v : ℕ) (hlo : lo + 4 ≤ s.esp) (hhi : s.esp ≤ hi) :
    (s.pushWriting v).Spec (ArgumentWrite.StackWithin lo hi) (fun _ => False)
      fun s' => s'.esp + 4 = s.esp := by
  refine Traced.Spec.bind (.touch ⟨by omega, by omega⟩) fun _ _ => .pure ?_
  exact Nat.sub_add_cancel (by omega)

theorem pushStringsWriting_spec {ws : List (List UInt8)} (hargs : PointsTo m args ws) {i : ℕ}
    (hi' : i ≤ ws.length) (argAddress : ℕ → ℕ) (hlo : lo + stringsSize (ws.take i) ≤ s.esp)
    (hhi : s.esp ≤ hi) :
    (pushStringsWriting m args i s argAddress).Spec (ArgumentWrite.StackWithin lo hi)
      (fun _ => False) fun r => r.1.esp + stringsSize (ws.take i) = s.esp := by
  induction i generalizing s argAddress with
  | zero => exact .pure (by rw [List.take_zero]; rfl)
  | succ i ih =>
    obtain ⟨w, hw⟩ : ∃ w, ws[i]? = some w := ⟨ws[i], List.getElem?_eq_getElem hi'⟩
    obtain ⟨hholds, hnul, hlen⟩ := hargs i w hw
    rw [stringsSize_take_succ hw] at hlo ⊢
    unfold pushStringsWriting
    dsimp only
    rw [strlenAt_eq hholds hnul hlen]
    refine Traced.Spec.bind (R := fun n => n = w.length) (.pure rfl) fun n hn => ?_
    subst hn
    refine Traced.Spec.bind (.touch ⟨by omega, by omega⟩) fun _ _ => ?_
    refine (ih (Nat.le_of_succ_le hi') _ ?_ ?_).mono (fun _ h => h) (fun _ h => h) fun r hr => ?_
    · dsimp only
      omega
    · dsimp only
      omega
    · dsimp only at hr
      omega

theorem pushAddressesWriting_spec (argAddress : ℕ → ℕ) {i : ℕ} (hlo : lo + 4 * i ≤ s.esp)
    (hhi : s.esp ≤ hi) :
    (pushAddressesWriting argAddress i s).Spec (ArgumentWrite.StackWithin lo hi)
      (fun _ => False) fun s' => s'.esp + 4 * i = s.esp := by
  induction i generalizing s with
  | zero => exact .pure rfl
  | succ i ih =>
    refine (pushWriting_spec _ (by omega) hhi).bind fun s' hs' => ?_
    exact (ih (by omega) (by omega)).mono (fun _ h => h) (fun _ h => h) fun r hr => by omega

/-- **The stack is written from the top down to the image's end**, and nowhere else. -/
theorem pushArgumentsWriting_spec {ws : List (List UInt8)} (hargs : PointsTo m args ws)
    (hesp : imageSize ws ≤ s.esp) : (pushArgumentsWriting m args ws.length s).Spec
      (ArgumentWrite.StackWithin (s.esp - imageSize ws) s.esp) (fun _ => False)
      fun s' => s'.esp + imageSize ws = s.esp := by
  have hsize : imageSize ws = stringsSize ws + 4 * (ws.length + 1) + 12 := rfl
  have htake : ws.take ws.length = ws := List.take_length
  refine (pushStringsWriting_spec hargs le_rfl _ (by rw [htake]; omega) le_rfl).bind
    fun r hr => ?_
  rw [htake] at hr
  refine (pushWriting_spec 0 (by omega) (by omega)).bind fun s₁ h₁ => ?_
  refine (pushAddressesWriting_spec r.2 (by omega) (by omega)).bind fun s₂ h₂ => ?_
  refine (pushWriting_spec s₂.esp (by omega) (by omega)).bind fun s₃ h₃ => ?_
  refine (pushWriting_spec ws.length (by omega) (by omega)).bind fun s₄ h₄ => ?_
  refine (pushWriting_spec 0 (by omega) (by omega)).mono (fun _ h => h) (fun _ h => h)
    fun s₅ h₅ => ?_
  omega

/-- The last word that is written is on top of the stack. -/
theorem mem_touched_pushArgumentsWriting {argc : ℕ} {s' : UserStack}
    (h : (pushArgumentsWriting m args argc s).result = .ok s') :
    .stack s'.esp 4 ∈ (pushArgumentsWriting m args argc s).touched := by
  unfold pushArgumentsWriting at h ⊢
  obtain ⟨r, hr, h, hsub⟩ := Traced.bind_eq_ok h
  obtain ⟨s₁, h₁, h, hsub₁⟩ := Traced.bind_eq_ok h
  obtain ⟨s₂, h₂, h, hsub₂⟩ := Traced.bind_eq_ok h
  obtain ⟨s₃, h₃, h, hsub₃⟩ := Traced.bind_eq_ok h
  obtain ⟨s₄, h₄, h, hsub₄⟩ := Traced.bind_eq_ok h
  cases h
  exact hsub (hsub₁ (hsub₂ (hsub₃ (hsub₄ List.mem_cons_self))))

end Stack

/-! ## The two budgets -/

/-- **Within bounds**: a pointer goes into the bytes that were requested for `args`, and
the bytes of the stack into its page. -/
def ArgumentWrite.InBounds (line : CString) (args : ℕ) : ArgumentWrite → Prop
  | .pointer a => args ≤ a ∧ a + 4 ≤ args + (line.strlen + 1)
  | .stack a n => physBase - pgSize ≤ a ∧ a + n ≤ physBase

/-- The program of a line is one that a directory can have: `load` fails for a name that is
longer than `NAME_MAX`. -/
def Loadable (line : CString) : Prop := ∀ w ∈ (words line.bytes).head?, w.length ≤ nameMax

/-- **The setup of the arguments stays in bounds**, wherever the line and `args` are,
whatever the rest of the kernel does in between and `load` returns; and it ends. -/
def StaysInBounds (line : CString) : Prop :=
  ∀ m user fileName args rest success, LinePlaced line fileName args m →
    Respects line fileName args rest → (success = true → Loadable line) →
    (startArgumentsWriting success fileName args rest m user).Spec
      (ArgumentWrite.InBounds line args) (fun _ => False) fun _ => True

variable {line : CString}

/-- The words of a line, each with the space behind it, are not longer than the line. By
induction on the length, along the words. -/
theorem stringsSize_words_le (l : List UInt8) : stringsSize (words l) ≤ l.length + 1 := by
  induction hn : l.length using Nat.strong_induction_on generalizing l with
  | _ n ih =>
    subst hn
    rcases line_cases l with ⟨-, hnone⟩ | ⟨sp, w, -, -, -, ⟨hl, hwords⟩ | ⟨rest, hl, hwords⟩⟩
    · rw [hnone]
      exact Nat.zero_le _
    · rw [hwords, hl, List.length_append]
      unfold stringsSize
      simp
    · have hrest := ih rest.length (by rw [hl]; simp; omega) rest rfl
      have hsize : stringsSize (words l) = w.length + 1 + stringsSize (words rest) := by
        rw [hwords]
        unfold stringsSize
        simp
      rw [hsize, hl]
      simp only [List.length_append, List.length_cons]
      omega

theorem length_le_stringsSize (ws : List (List UInt8)) : ws.length ≤ stringsSize ws := by
  induction ws with
  | nil => exact le_rfl
  | cons w ws ih =>
    unfold stringsSize at ih ⊢
    rw [List.map_cons, List.sum_cons, List.length_cons]
    omega

/-- The image of the longest line does not take all of the addresses. -/
theorem imageSize_words_le (hlen : line.strlen < pgSize) :
    imageSize (words line.bytes) ≤ physBase := by
  have hstrings := stringsSize_words_le line.bytes
  have hcount := length_le_stringsSize (words line.bytes)
  unfold CString.strlen at hlen
  unfold imageSize physBase
  unfold pgSize at hlen
  omega

/-- **The setup, with room for the pointers**: they are the first writes, and what
follows, if the program was loaded, is the image of the line. -/
theorem splitLineWriting_of_room (hlen : line.strlen < pgSize)
    (hroom : 4 * (words line.bytes).length ≤ line.strlen + 1) {m : ByteMemory}
    {fileName args : ℕ} {rest : ByteMemory → ByteMemory}
    (hplaced : LinePlaced line fileName args m) (hrest : Respects line fileName args rest) :
    ∃ m', PointsTo (rest m') args (words line.bytes)
      ∧ splitLineWriting args (pgSize + 1) m fileName 0
        = ⟨.ok (m', (words line.bytes).length),
          (List.range (words line.bytes).length).map fun i => .pointer (args + 4 * i)⟩ := by
  obtain ⟨m', hsplit, hpoints⟩ := splitLine_pointsTo hlen
    (hroom.trans (allocatedBytes_spec (line.strlen + 1) hlen).2.1) hplaced hrest
  have hwrites := (splitLineWriting_eq hsplit).2
  rw [Nat.sub_zero, ← List.range_eq_range'] at hwrites
  exact ⟨m', hpoints, hwrites⟩

/-- **The lines that keep the budgets** are in bounds; a line whose program cannot be loaded
needs no room on the stack. -/
theorem staysInBounds (hlen : line.strlen < pgSize)
    (hroom : 4 * (words line.bytes).length ≤ line.strlen + 1)
    (hfits : Loadable line → imageSize (words line.bytes) ≤ pgSize) : StaysInBounds line := by
  intro m user fileName args rest success hplaced hrest hload
  obtain ⟨m', hpoints, heq⟩ := splitLineWriting_of_room hlen hroom hplaced hrest
  have hpage : pgSize ≤ physBase := by decide
  refine Traced.Spec.bind (R := fun r => r = (m', (words line.bytes).length)) ?_ fun r hr => ?_
  · rw [heq]
    refine ⟨fun w hw => ?_, rfl⟩
    obtain ⟨i, hi, rfl⟩ := List.mem_map.mp hw
    rw [List.mem_range] at hi
    exact ⟨by omega, by omega⟩
  · subst hr
    cases success with
    | false => exact .pure trivial
    | true =>
      have hfits := hfits (hload rfl)
      refine ((pushArgumentsWriting_spec hpoints (s := ⟨user, physBase⟩)
        (hfits.trans hpage)).mono ?_ (fun _ h => h) fun _ _ => trivial).bind
        fun _ (_ : True) => .pure trivial
      intro w hwithin
      cases w with
      | pointer a => exact hwithin.elim
      | stack a n => exact ⟨(Nat.sub_le_sub_left hfits physBase).trans hwithin.1, hwithin.2⟩

/-- **The last pointer** of a line is written, wherever that is. -/
theorem lastPointer_mem_touched (hlen : line.strlen < pgSize) (hwords : words line.bytes ≠ [])
    (success : Bool) (rest : ByteMemory → ByteMemory) (user : ByteMemory) :
    .pointer (2 * pgSize + 4 * ((words line.bytes).length - 1))
      ∈ (startArgumentsWriting success pgSize (2 * pgSize) rest (.ofList line.stored pgSize)
        user).touched := by
  have hplaced := linePlaced_ofList hlen
  have hapart : 2 * pgSize + 4 * (words line.bytes).length ≤ pgSize
      ∨ pgSize + pgSize ≤ 2 * pgSize := by
    omega
  obtain ⟨m', hsplit, -⟩ := splitLine_words hlen hplaced.holds hplaced.page hapart
  obtain ⟨-, hwrites⟩ := splitLineWriting_eq hsplit
  refine Traced.touched_subset_bind _ _ ?_
  rw [hwrites]
  refine List.mem_map_of_mem ?_
  have hpos := List.length_pos_iff.mpr hwords
  rw [List.mem_range'_1]
  omega

/-- **The lowest word** of the image is written, wherever that is. -/
theorem lowestWord_mem_touched (hlen : line.strlen < pgSize)
    (hroom : 4 * (words line.bytes).length ≤ line.strlen + 1) (user : ByteMemory) :
    .stack (physBase - imageSize (words line.bytes)) 4
      ∈ (startArgumentsWriting true pgSize (2 * pgSize) id (.ofList line.stored pgSize)
        user).touched := by
  have hrest : Respects line pgSize (2 * pgSize) id := fun _ _ _ => rfl
  obtain ⟨m', hpoints, heq⟩ := splitLineWriting_of_room hlen hroom
    (linePlaced_ofList hlen) hrest
  obtain ⟨s, hs, hesp⟩ := (pushArgumentsWriting_spec hpoints (s := ⟨user, physBase⟩)
    (imageSize_words_le hlen)).exists_ok
  have hlowest : s.esp = physBase - imageSize (words line.bytes) := Nat.eq_sub_of_add_eq hesp
  unfold startArgumentsWriting
  rw [Traced.bind_of_ok heq, ← hlowest]
  refine List.mem_append_right _ ?_
  dsimp only
  rw [if_pos rfl]
  exact Traced.touched_subset_bind _ _ (mem_touched_pushArgumentsWriting hs)

/-- Lines in bounds keep the budgets. -/
theorem budgets_of_staysInBounds (hlen : line.strlen < pgSize) (hwords : words line.bytes ≠ [])
    (h : StaysInBounds line) : 4 * (words line.bytes).length ≤ line.strlen + 1
      ∧ (Loadable line → imageSize (words line.bytes) ≤ pgSize) := by
  have hrest : Respects line pgSize (2 * pgSize) id := fun _ _ _ => rfl
  have hroom : 4 * (words line.bytes).length ≤ line.strlen + 1 := by
    have hwrites := (h _ (fun _ => 0) _ _ id false (linePlaced_ofList hlen) hrest nofun).1
    have hlast := (hwrites _ (lastPointer_mem_touched hlen hwords _ _ _)).2
    omega
  refine ⟨hroom, fun hload => ?_⟩
  have hwrites := (h _ (fun _ => 0) _ _ id true (linePlaced_ofList hlen) hrest fun _ => hload).1
  have hlowest := (hwrites _ (lowestWord_mem_touched hlen hroom _)).1
  have hsize := imageSize_words_le hlen
  omega

theorem strlen_fnCopy_lt (fileName : CString) : (fnCopy fileName).strlen < pgSize := by
  have hlength := List.length_take_le (pgSize - 1) fileName.bytes
  have hpos : 0 < pgSize := by decide
  show (fileName.bytes.take (pgSize - 1)).length < pgSize
  omega

/-- **The setup of a command line's arguments stays in bounds exactly if both budgets are
kept**: the pointers of the tokens fit into as many bytes as the line has, its terminator
included, and, unless the first token is no name of a file, the image of the tokens fits into
a page. -/
theorem staysInBounds_fnCopy_iff {fileName : CString}
    (hwords : words (fnCopy fileName).bytes ≠ []) : StaysInBounds (fnCopy fileName)
      ↔ 4 * (words (fnCopy fileName).bytes).length ≤ (fnCopy fileName).strlen + 1
        ∧ (Loadable (fnCopy fileName) → imageSize (words (fnCopy fileName).bytes) ≤ pgSize) := by
  have hlen := strlen_fnCopy_lt fileName
  exact ⟨budgets_of_staysInBounds hlen hwords,
    fun ⟨hroom, hfits⟩ => staysInBounds hlen hroom hfits⟩

/-- `echo hi`. -/
def echoLine : CString := ⟨[101, 99, 104, 111, 32, 104, 105], by decide⟩

theorem staysInBounds_fnCopy_echoLine : StaysInBounds (fnCopy echoLine) :=
  (staysInBounds_fnCopy_iff (by decide)).mpr ⟨by decide, fun _ => by decide⟩

/-- A short name and a word that fills the page. -/
def longLine : CString where
  bytes := [97] ++ 32 :: List.replicate 4093 97
  noNul h := by
    rcases List.mem_append.mp h with h | h
    · exact absurd h (by decide)
    · exact (List.mem_cons.mp h).elim (fun h => absurd h (by decide))
        fun h => absurd (List.eq_of_mem_replicate h) (by decide)

theorem words_longLine : words longLine.bytes = [[97], List.replicate 4093 97] := by
  have hletters : ∀ n, ∀ c ∈ List.replicate n (97 : UInt8), c ≠ 32 := fun n c hc => by
    rw [List.eq_of_mem_replicate hc]
    decide
  have hname : words longLine.bytes = [97] :: words (List.replicate 4093 97) :=
    words_append_space (List.cons_ne_nil _ _) (hletters 1) _
  rw [hname, words_eq_singleton (List.ne_nil_of_length_pos (List.length_replicate ▸ by decide))
    (hletters 4093)]

/-- **Both budgets are overrun.** For `a b c d e` ten bytes are requested and sixteen are
allocated, and the fifth pointer is written behind them; and the image of `a` with a word that
fills the page is twenty-four bytes longer than the stack's page. -/
theorem arguments_outOfBounds :
    (lettersLine.strlen + 1 = 10 ∧ allocatedBytes (lettersLine.strlen + 1) = 16
      ∧ .pointer (2 * pgSize + 16)
        ∈ (startArgumentsWriting true pgSize (2 * pgSize) id (.ofList lettersLine.stored pgSize)
          fun _ => 0).touched)
    ∧ Loadable longLine ∧ .stack (physBase - pgSize - 24) 4
      ∈ (startArgumentsWriting true pgSize (2 * pgSize) id (.ofList longLine.stored pgSize)
        fun _ => 0).touched := by
  have hletters := lastPointer_mem_touched (by decide : lettersLine.strlen < pgSize)
    (by decide) true id fun _ => 0
  have hsize : imageSize (words longLine.bytes) = pgSize + 24 := by
    have htwo : ∀ v w, imageSize [v, w] = v.length + w.length + 26 := fun v w => by
      simp [imageSize, stringsSize]
      omega
    rw [words_longLine, htwo, List.length_replicate]
    rfl
  have hstrlen : longLine.strlen = 4095 := by
    show (List.replicate 4093 (97 : UInt8)).length + 1 + 1 = 4095
    rw [List.length_replicate]
  have hlong := lowestWord_mem_touched (by rw [hstrlen]; decide : longLine.strlen < pgSize)
    (by rw [words_longLine, hstrlen]; decide) fun _ => 0
  rw [hsize] at hlong
  refine ⟨⟨by decide, by decide, hletters⟩, ?_, hlong⟩
  intro w hw
  rw [words_longLine] at hw
  cases hw
  decide

end Pintos
