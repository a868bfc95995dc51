import Cs162.ByteMemory

/-!
# Headers of tar archives

`ustar_make_header` writes a header of 512 bytes and `ustar_parse_header` reads it back. They meet
in text fields of octal digits, in a checksum over the header that counts its own field as spaces,
and in the names, from which both strip the prefixes that lead out of the current directory. What is
made is parsed back, and no accepted header has a dangerous name (`parseHeader_makeHeader`,
`parseHeader_safe`).
-/

namespace Ustar

/-! ## Names -/

/-- A prefix that is dropped: `/`, `./` or `../`. -/
def Antisocial (s : List UInt8) : Prop :=
  [47] <+: s ∨ [46, 47] <+: s ∨ [46, 46, 47] <+: s

instance (s : List UInt8) : Decidable (Antisocial s) := inferInstanceAs (Decidable (_ ∨ _))

/-- The loop of `strip_antisocial_prefixes`: each turn goes on behind the next slash. -/
def stripLoop : ℕ → List UInt8 → List UInt8
  | 0, s => s
  | fuel + 1, s => if Antisocial s then stripLoop fuel (s.dropWhile (· ≠ 47)).tail else s

/-- `strip_antisocial_prefixes`. -/
def stripAntisocialPrefixes (s : List UInt8) : List UInt8 :=
  let s := stripLoop s.length s
  if s = [] ∨ s = [46, 46] then [46] else s

/-- A name that stays in the current directory. -/
def Safe (s : List UInt8) : Prop := s ≠ [] ∧ ¬ Antisocial s ∧ s ≠ [46, 46]

theorem not_antisocial_stripLoop {fuel : ℕ} {s : List UInt8} (h : s.length ≤ fuel) :
    ¬ Antisocial (stripLoop fuel s) := by
  induction fuel generalizing s with
  | zero =>
    obtain rfl : s = [] := List.eq_nil_of_length_eq_zero (Nat.le_zero.1 h)
    decide
  | succ fuel ih =>
    unfold stripLoop
    split
    · refine ih ?_
      have hle := (List.dropWhile_sublist (fun c : UInt8 => decide (c ≠ 47)) (l := s)).length_le
      rw [List.length_tail]
      omega
    · assumption

theorem safe_strip (s : List UInt8) : Safe (stripAntisocialPrefixes s) := by
  have hloop := not_antisocial_stripLoop (le_refl s.length)
  unfold stripAntisocialPrefixes
  dsimp only
  split
  · exact ⟨by decide, by decide, by decide⟩
  · rename_i h
    exact ⟨fun h' => h (.inl h'), hloop, fun h' => h (.inr h')⟩

/-- **A name is stripped once.** -/
theorem strip_eq_self {s : List UInt8} (h : Safe s) : stripAntisocialPrefixes s = s := by
  have hloop : stripLoop s.length s = s := by
    cases hn : s.length with
    | zero => rfl
    | succ n =>
      unfold stripLoop
      rw [if_neg h.2.1]
  unfold stripAntisocialPrefixes
  rw [hloop]
  exact if_neg (not_or_intro h.1 h.2.2)

theorem stripLoop_suffix (fuel : ℕ) (s : List UInt8) : stripLoop fuel s <:+ s := by
  induction fuel generalizing s with
  | zero => exact List.suffix_refl s
  | succ fuel ih =>
    unfold stripLoop
    split
    · exact (ih _).trans ((List.tail_suffix _).trans (List.dropWhile_suffix _))
    · exact List.suffix_refl s

theorem nul_not_mem_strip {s : List UInt8} (h : 0 ∉ s) : 0 ∉ stripAntisocialPrefixes s := by
  unfold stripAntisocialPrefixes
  dsimp only
  split
  · decide
  · exact fun hmem => h ((stripLoop_suffix _ s).subset hmem)

/-! ## Octal fields -/

/-- The digits that `%0no` prints for a number that has no more than `n`. -/
def octal : ℕ → ℕ → List UInt8
  | 0, _ => []
  | n + 1, v => octal n (v / 8) ++ [UInt8.ofNat (48 + v % 8)]

/-- `parse_octal_field`, from a place of the field on. -/
def parseOctalField : List UInt8 → ℕ → ℕ → Option ℕ
  | [], _, _ => none
  | c :: s, ofs, value =>
    if 48 ≤ c.toNat ∧ c.toNat ≤ 55 then
      if value > (2 ^ 32 - 1) / 8 then none
      else parseOctalField s (ofs + 1) (c.toNat - 48 + value * 8)
    else if c = 32 ∨ c = 0 then if ofs > 0 then some value else none
    else none

theorem length_octal (n v : ℕ) : (octal n v).length = n := by
  induction n generalizing v with
  | zero => rfl
  | succ n ih => rw [octal, List.length_append, ih, List.length_singleton]

/-- Digits are added to the value. -/
theorem parseOctalField_octal {n v ofs value : ℕ} (s : List UInt8) (hv : v < 8 ^ n)
    (h : value * 8 ^ n + v < 2 ^ 32) :
    parseOctalField (octal n v ++ s) ofs value
      = parseOctalField s (ofs + n) (value * 8 ^ n + v) := by
  induction n generalizing v s with
  | zero =>
    obtain rfl : v = 0 := by omega
    simp [octal]
  | succ n ih =>
    have hdigit : (UInt8.ofNat (48 + v % 8)).toNat = 48 + v % 8 :=
      UInt8.toNat_ofNat_of_lt' (by unfold UInt8.size; omega)
    rw [pow_succ] at hv
    rw [pow_succ, ← Nat.mul_assoc] at h ⊢
    rw [octal, List.append_assoc, ih _ (by omega) (by omega), List.singleton_append,
      parseOctalField,
      hdigit, if_pos (by omega), if_neg (by omega)]
    congr 1
    omega

/-- **A field that was printed is read back.** -/
theorem parseOctalField_eq {n v : ℕ} (hn : 0 < n) (hv : v < 8 ^ n) (h : v < 2 ^ 32) :
    parseOctalField (octal n v ++ [0]) 0 0 = some v := by
  rw [parseOctalField_octal _ hv (by omega), Nat.zero_mul, Nat.zero_add, Nat.zero_add]
  unfold parseOctalField
  rw [if_neg (by decide), if_pos (.inr rfl), if_pos hn]

/-! ## Headers -/

/-- Bytes are written at a place; `strlcpy` and `snprintf` also write the end of the string. -/
def put (h : ByteMemory) (ofs : ℕ) (s : List UInt8) : ByteMemory := fun i =>
  if ofs ≤ i ∧ i < ofs + s.length then s.getD (i - ofs) 0 else h i

/-- The bytes of a field. -/
def field (h : ByteMemory) (ofs n : ℕ) : List UInt8 := (List.range n).map fun i => h (ofs + i)

/-- `enum ustar_type`, without the mark of the end. -/
inductive UstarType
  | regular | directory
  deriving DecidableEq

/-- The byte of a type. -/
def UstarType.flag : UstarType → UInt8
  | regular => 48
  | directory => 53

/-- `calculate_chksum`. -/
def calculateChksum (h : ByteMemory) : ℕ :=
  ((List.range 512).map fun i => if 148 ≤ i ∧ i < 156 then 32 else (h i).toNat).sum

/-- A header except for the checksum. -/
def unsummed (fileName : List UInt8) (type : UstarType) (size : ℕ) : ByteMemory :=
  let h : ByteMemory := fun _ => 0
  let h := put h 0 (fileName ++ [0])
  let h := put h 100 (octal 7 (if type = .regular then 0o644 else 0o755) ++ [0])
  let h := put h 108 (List.replicate 7 48 ++ [0])
  let h := put h 116 (List.replicate 7 48 ++ [0])
  let h := put h 124 (octal 11 size ++ [0])
  let h := put h 136 (octal 11 1136102400 ++ [0])
  let h := put h 156 [type.flag]
  let h := put h 257 [117, 115, 116, 97, 114, 0]
  let h := put h 263 [48, 48]
  let h := put h 297 [114, 111, 111, 116, 0]
  put h 265 [114, 111, 111, 116, 0]

/-- `ustar_make_header`: the header, unless the name is too long. -/
def makeHeader (fileName : List UInt8) (type : UstarType) (size : ℕ) : Option ByteMemory :=
  let fileName := stripAntisocialPrefixes fileName
  if fileName.length > 99 then none
  else
    let h := unsummed fileName type size
    some (put h 148 (octal 7 (calculateChksum h) ++ [0]))

/-- What a header says. -/
inductive Parsed
  | eof
  | entry (fileName : List UInt8) (type : UstarType) (size : ℕ)
  deriving DecidableEq

/-- The rest of `ustar_parse_header`, once a header has passed the checks. -/
def parseEntry (h : ByteMemory) : Except String Parsed :=
  let fileName := stripAntisocialPrefixes ((field h 0 100).takeWhile (· ≠ 0))
  if h 156 = UstarType.regular.flag then
    match parseOctalField (field h 124 12) 0 0 with
    | none => .error "corrupt file size field"
    | some size =>
      if size > 2 ^ 31 - 1 then .error "file too large"
      else .ok (.entry fileName .regular size)
  else if h 156 = UstarType.directory.flag then .ok (.entry fileName .directory 0)
  else .error "unimplemented file type"

/-- `ustar_parse_header`. -/
def parseHeader (h : ByteMemory) : Except String Parsed :=
  if ∀ i < 512, h i = 0 then .ok .eof
  else if field h 257 6 ≠ [117, 115, 116, 97, 114, 0] then .error "not a ustar archive"
  else if field h 263 2 ≠ [48, 48] then .error "invalid ustar version"
  else
    match parseOctalField (field h 148 8) 0 0 with
    | none => .error "corrupt chksum field"
    | some chksum =>
      if chksum ≠ calculateChksum h then .error "checksum mismatch"
      else if h 99 ≠ 0 ∨ h 345 ≠ 0 then .error "file name too long"
      else parseEntry h

section

variable {h : ByteMemory} {ofs n k : ℕ} {s : List UInt8}

theorem put_of_not (hk : k < ofs ∨ ofs + s.length ≤ k) : put h ofs s k = h k := if_neg (by omega)

theorem field_put_other {ofs' : ℕ} (hout : ofs' + n ≤ ofs ∨ ofs + s.length ≤ ofs') :
    field (put h ofs s) ofs' n = field h ofs' n := by
  refine List.map_congr_left fun k hk => put_of_not ?_
  rw [List.mem_range] at hk
  omega

theorem field_put_same : field (put h ofs s) ofs s.length = s := by
  refine List.ext_getElem (by simp [field]) fun k hk _ => ?_
  simp only [field, List.length_map, List.length_range] at hk
  simp [field, put, hk]

theorem calculateChksum_le (h : ByteMemory) : calculateChksum h ≤ 512 * 255 := by
  have hle := List.sum_le_card_nsmul
    ((List.range 512).map fun i => if 148 ≤ i ∧ i < 156 then 32 else (h i).toNat) 255 (by
      intro x hx
      obtain ⟨i, -, rfl⟩ := List.mem_map.1 hx
      have := (h i).toNat_lt
      split <;> omega)
  rwa [List.length_map, List.length_range, smul_eq_mul] at hle

theorem calculateChksum_put (hs : s.length = 8) :
    calculateChksum (put h 148 s) = calculateChksum h := by
  unfold calculateChksum
  refine congrArg List.sum (List.map_congr_left fun k _ => ?_)
  split
  · rfl
  · rw [put_of_not (by omega)]

/-- The string at the start of a header. -/
theorem takeWhile_field_name (hs : 0 ∉ s) (hlen : s.length ≤ 99) :
    (field (put (fun _ => 0) 0 (s ++ [0])) 0 100).takeWhile (· ≠ 0) = s := by
  have hfield : field (put (fun _ => 0) 0 (s ++ [0])) 0 100
      = s ++ List.replicate (100 - s.length) 0 := by
    refine List.ext_getElem (by simp [field]; omega) fun k hk _ => ?_
    simp only [field, List.getElem_map, List.getElem_range, Nat.zero_add]
    by_cases hks : k < s.length
    · rw [List.getElem_append_left hks, put, if_pos (by simp; omega), Nat.sub_zero,
        List.getD_append _ _ _ _ hks, List.getD_eq_getElem _ _ hks]
    · rw [List.getElem_append_right (by omega), List.getElem_replicate, put]
      split
      · rw [Nat.sub_zero, List.getD_append_right _ _ _ _ (by omega)]
        cases k - s.length <;> rfl
      · rfl
  have hne : ∀ c ∈ s, decide (c ≠ 0) = true := fun c hc => decide_eq_true fun h0 => hs (h0 ▸ hc)
  obtain ⟨m, hm⟩ := Nat.exists_eq_add_of_lt (show s.length < 100 by omega)
  rw [hfield, List.takeWhile_append_of_pos hne, hm,
    show s.length + m + 1 - s.length = m + 1 by omega, List.replicate_succ,
    List.takeWhile_cons_of_neg (by simp), List.append_nil]

end

/-- A header with a checksum passes the checks of everything but the type and the size. -/
theorem parseHeader_checked {base : ByteMemory}
    (hmagic : field base 257 6 = [117, 115, 116, 97, 114, 0])
    (hversion : field base 263 2 = [48, 48]) (hname : base 99 = 0 ∧ base 345 = 0) :
    parseHeader (put base 148 (octal 7 (calculateChksum base) ++ [0])) = parseEntry base := by
  have hle := calculateChksum_le base
  have hlen : (octal 7 (calculateChksum base) ++ [0]).length = 8 := by
    rw [List.length_append, length_octal, List.length_singleton]
  have hchksum : field (put base 148 (octal 7 (calculateChksum base) ++ [0])) 148 8
      = octal 7 (calculateChksum base) ++ [0] := hlen ▸ field_put_same
  have hparse := parseOctalField_eq (n := 7) (by decide)
    (show calculateChksum base < 8 ^ 7 by omega)
    (by omega)
  have hzero : ¬ ∀ i < 512, put base 148 (octal 7 (calculateChksum base) ++ [0]) i = 0 := by
    intro hzero
    have hbyte : base 257 = 117 := congrArg (List.headD · 0) hmagic
    have := hzero 257 (by decide)
    rw [put_of_not (by omega), hbyte] at this
    exact absurd this (by decide)
  unfold parseHeader parseEntry
  rw [if_neg hzero]
  simp (disch := omega) only [field_put_other, put_of_not]
  rw [hmagic, hversion, if_neg (not_not_intro rfl), if_neg (not_not_intro rfl), hchksum, hparse]
  dsimp only
  rw [calculateChksum_put hlen, if_neg (not_not_intro rfl),
    if_neg (not_or_intro (not_not_intro hname.1) (not_not_intro hname.2))]

/-- The fields of a header as they were written: no later field touches an earlier one. -/
theorem unsummed_spec {name : List UInt8} (hname : 0 ∉ name) (hlen : name.length ≤ 99)
    (type : UstarType) (size : ℕ) : let h := unsummed name type size
    field h 257 6 = [117, 115, 116, 97, 114, 0] ∧ field h 263 2 = [48, 48]
      ∧ (field h 0 100).takeWhile (· ≠ 0) = name ∧ (h 99 = 0 ∧ h 345 = 0)
      ∧ field h 124 12 = octal 11 size ++ [0] ∧ h 156 = type.flag := by
  have hsize : (octal 11 size ++ [0]).length = 12 := by
    rw [List.length_append, length_octal, List.length_singleton]
  unfold unsummed
  simp (disch := first
    | (simp only [List.length_append, length_octal, List.length_singleton, List.length_replicate,
        List.length_cons, List.length_nil]; omega)
    | fail) only [field_put_other, put_of_not, takeWhile_field_name hname hlen]
  refine ⟨field_put_same, field_put_same, trivial, ⟨?_, trivial⟩, hsize ▸ field_put_same, rfl⟩
  unfold put
  split
  · rw [Nat.sub_zero, List.getD_append_right _ _ _ _ hlen]
    cases 99 - name.length <;> rfl
  · rfl

/-- **What is made is parsed back.** -/
theorem parseHeader_makeHeader {name : List UInt8} (type : UstarType) {size : ℕ} (hname : 0 ∉ name)
    (hlen : (stripAntisocialPrefixes name).length ≤ 99) (hsize : size < 2 ^ 31) :
    ∃ h, makeHeader name type size = some h ∧ parseHeader h
      = .ok (.entry (stripAntisocialPrefixes name) type (if type = .regular then size else 0)) := by
  obtain ⟨hmagic, hversion, hstring, hbytes, hfield, hflag⟩ :=
    unsummed_spec (nul_not_mem_strip hname) hlen type size
  unfold makeHeader
  dsimp only
  rw [if_neg (by omega)]
  refine ⟨_, rfl, ?_⟩
  rw [parseHeader_checked hmagic hversion hbytes, parseEntry, hstring, hfield, hflag,
    strip_eq_self (safe_strip _),
    parseOctalField_eq (by decide) (by omega) (by omega)]
  cases type with
  | regular => exact (if_pos rfl).trans (if_neg (by omega))
  | directory => rfl

/-- **What is accepted has a safe name** and a size that fits. -/
theorem parseHeader_safe {h : ByteMemory} {name : List UInt8} {type : UstarType} {size : ℕ}
    (hparse : parseHeader h = .ok (.entry name type size)) : Safe name ∧ size ≤ 2 ^ 31 - 1 := by
  unfold parseHeader parseEntry at hparse
  dsimp only at hparse
  split at hparse
  · cases hparse
  split at hparse
  · cases hparse
  split at hparse
  · cases hparse
  split at hparse
  · cases hparse
  split at hparse
  · cases hparse
  split at hparse
  · cases hparse
  split at hparse
  · split at hparse
    · cases hparse
    · split at hparse
      · cases hparse
      · cases hparse
        exact ⟨safe_strip _, by omega⟩
  · split at hparse
    · cases hparse
      exact ⟨safe_strip _, Nat.zero_le _⟩
    · cases hparse

/-- **Headers**: what is made for a name that fits is parsed back, with the stripped name, and what
is accepted as a file or directory has a name that stays in the current directory. -/
theorem header_roundTrip :
    (∀ (name : List UInt8) (type : UstarType) (size : ℕ), 0 ∉ name →
      (stripAntisocialPrefixes name).length ≤ 99 → size < 2 ^ 31 →
        ∃ h, makeHeader name type size = some h ∧ parseHeader h
          = .ok (.entry (stripAntisocialPrefixes name) type (if type = .regular then size else 0)))
    ∧ ∀ (h : ByteMemory) (name : List UInt8) (type : UstarType) (size : ℕ),
      parseHeader h = .ok (.entry name type size) →
        Safe name ∧ size ≤ 2 ^ 31 - 1 :=
  ⟨fun _ type _ hname hlen hsize => parseHeader_makeHeader type hname hlen hsize,
    fun _ _ _ _ hparse => parseHeader_safe hparse⟩

/-- A file of 600 bytes, with a name that starts with a slash. -/
theorem header_roundTrip_slash :
    ∃ h, makeHeader [47, 97] .regular 600 = some h
      ∧ parseHeader h = .ok (.entry [97] .regular 600) ∧ Safe [97] ∧ 600 ≤ 2 ^ 31 - 1 := by
  obtain ⟨h, hmake, hparse⟩ :=
    header_roundTrip.1 [47, 97] .regular 600 (by decide) (by decide) (by decide)
  exact ⟨h, hmake, hparse, header_roundTrip.2 h [97] .regular 600 hparse⟩

end Ustar
