import Cs162.ByteMemory
import Cs162.KvMessage

/-!
# Messages on a connection

`kvmessage_send` writes the length of a JSON text in four bytes, and then the text.
`kvmessage_parse` reads four bytes, then as many as they say, and parses what it has
got. A connection is the sequence of the pieces in which the bytes arrive, and one
call of `read` returns bytes of one piece only. The bytes that were read are followed
in memory by whatever is there: there is no terminator behind them.

The JSON library is not part of the program. `JsonC` is what is assumed of it: the
tokener finds the fields of an object again wherever its text stands. It does look at
what follows the text. Behind an object it skips blanks and comments, and a slash that
begins no comment makes it refuse everything.
-/

namespace Kv

/-! ## The library -/

/-- **A message as it is in memory** (`kvmessage_t`), its fields being strings or null. -/
structure CMessage where
  type : Int
  key : Option CString
  value : Option CString
  message : Option CString
deriving DecidableEq

/-- **A field of an object**: it is missing, it is `null`, or it is a value, which may be
read as a number and as a string. -/
inductive JsonField
  | absent
  | null
  | value (int : Int) (string : CString)
deriving DecidableEq

/-- The fields that are looked for. A text that is not an object has none. -/
structure JsonFields where
  type : JsonField
  key : JsonField
  value : JsonField
  message : JsonField
deriving DecidableEq

/-- A field shows a string, or that there is none. -/
def JsonField.Shows (f : JsonField) : Option CString → Prop
  | none => f = .absent
  | some s => ∃ n, f = .value n s

/-- The fields show a message. -/
structure JsonFields.Shows (o : JsonFields) (msg : CMessage) : Prop where
  type : ∃ s, o.type = .value msg.type s
  key : o.key.Shows msg.key
  value : o.value.Shows msg.value
  message : o.message.Shows msg.message

/-- The fields of what is not an object. -/
def JsonFields.none : JsonFields := ⟨.absent, .absent, .absent, .absent⟩

/-- The states of `json_tokener_parse_ex` behind an object. -/
inductive TokenerState
  | eatws | commentStart | comment | commentEol | commentEnd

/-- `isspace`. -/
def isspace (c : UInt8) : Bool := decide (c = 32 ∨ (9 ≤ c ∧ c ≤ 13))

/-- **`json_tokener_parse_ex` behind an object**, up to the terminator: whether it ends
without an error. -/
def tokenerTrailer : TokenerState → List UInt8 → Bool
  | .commentStart, [] => false
  | _, [] => true
  | .eatws, c :: l =>
    if isspace c then tokenerTrailer .eatws l
    else if c = 47 then tokenerTrailer .commentStart l
    else true
  | .commentStart, c :: l =>
    if c = 42 then tokenerTrailer .comment l
    else if c = 47 then tokenerTrailer .commentEol l
    else false
  | .comment, c :: l => tokenerTrailer (if c = 42 then .commentEnd else .comment) l
  | .commentEol, c :: l => tokenerTrailer (if c = 10 then .eatws else .commentEol) l
  | .commentEnd, c :: l => tokenerTrailer (if c = 47 then .eatws else .comment) l

/-- **The tokener accepts a text with what is behind it**: the two are no longer than an
`int` can say, and there is no stray slash. -/
def TokenerAccepts (text behind : CString) : Prop :=
  text.strlen + behind.strlen < 2 ^ 31 ∧ tokenerTrailer .eatws behind.bytes = true

/-- **What is assumed of the JSON library.** -/
structure JsonC where
  /-- `json_object_to_json_string` of the object of a message. -/
  toJsonString : CMessage → CString
  /-- `json_tokener_parse` of the text at an address. -/
  tokenerParse : ByteMemory → ℕ → JsonFields
  /-- What was encoded is decoded. -/
  faithful : ∀ msg m a behind, m.Holds a ((toJsonString msg).bytes ++ behind.stored) →
    TokenerAccepts (toJsonString msg) behind → (tokenerParse m a).Shows msg
  /-- Unless what is behind the text is refused. -/
  refuses : ∀ msg m a behind, m.Holds a ((toJsonString msg).bytes ++ behind.stored) →
    ¬ TokenerAccepts (toJsonString msg) behind → tokenerParse m a = .none

/-! ## Connections -/

/-- **A connection**: the pieces in which the bytes arrive. -/
abbrev Connection : Type := List (List UInt8)

/-- `read`, which returns bytes of the first piece. At the end there are none. -/
def Connection.read (conn : Connection) (n : ℕ) : List UInt8 × Connection :=
  match conn with
  | [] => ([], [])
  | piece :: rest => (piece.take n, if piece.drop n = [] then rest else piece.drop n :: rest)

/-- `htonl`: the bytes of a word as they are sent. -/
def htonl (n : ℕ) : List UInt8 :=
  [.ofNat (n / 2 ^ 24), .ofNat (n / 2 ^ 16), .ofNat (n / 2 ^ 8), .ofNat n]

/-- `ntohl`, as an `int`. -/
def ntohl (bytes : List UInt8) : Int :=
  ((bytes.foldl (fun n b => n * 256 + b.toNat) 0 : ℕ) : Int).bmod (2 ^ 32)

/-- **`kvmessage_send`**: the bytes that are written. -/
def kvmessageSend (json : JsonC) (msg : CMessage) : List UInt8 :=
  htonl (json.toJsonString msg).strlen ++ (json.toJsonString msg).bytes

/-! ## `kvmessage_parse` -/

/-- **What arrives**: not all of a message, a length that no array can have, or the fields
of an object. -/
inductive Delivered
  | short
  | oversized
  | fields (o : JsonFields)
deriving DecidableEq

/-- The reading part of `kvmessage_parse`. The array of the body is on the stack, at an
address, and there is room for a number of bytes. -/
def receive (json : JsonC) (room : ℕ) (m : ByteMemory) (buffer : ℕ) (conn : Connection) :
    Delivered :=
  let (header, conn) := conn.read 4
  if header.length < 4 then .short
  else
    let size := ntohl header
    if size < 0 ∨ (room : Int) < size then .oversized
    else
      let (body, _) := conn.read size.toNat
      if (body.length : Int) < size then .short
      else .fields (json.tokenerParse (m.transfer (.ofList body 0) buffer 0 body.length) buffer)

/-- What `kvmessage_parse` returns, unless the process dies. -/
inductive ParseResult
  | died
  | null
  | message (msg : CMessage)
deriving DecidableEq

/-- A string field of the new message. `json_object_get_string` returns a null pointer for
`null`, and `strlen` reads through it. -/
def JsonField.string : JsonField → Option (Option CString)
  | absent => some none
  | null => none
  | value _ s => some (some s)

/-- The type of the new message, which is zero at first. -/
def JsonField.int : JsonField → Int
  | value n _ => n
  | _ => 0

/-- The new message. -/
def JsonFields.toMessage (o : JsonFields) : ParseResult :=
  match o.key.string, o.value.string, o.message.string with
  | some key, some value, some message => .message ⟨o.type.int, key, value, message⟩
  | _, _, _ => .died

/-- What becomes of what has arrived. -/
def Delivered.parse : Delivered → ParseResult
  | short => .null
  | oversized => .died
  | fields o => o.toMessage

/-- **`kvmessage_parse`**. -/
def kvmessageParse (json : JsonC) (room : ℕ) (m : ByteMemory) (buffer : ℕ) (conn : Connection) :
    ParseResult :=
  (receive json room m buffer conn).parse

theorem JsonField.Shows.string_eq {f : JsonField} {s : Option CString} (h : f.Shows s) :
    f.string = some s := by
  cases s with
  | none =>
    rw [show f = .absent from h]
    rfl
  | some s =>
    obtain ⟨n, rfl⟩ := h
    rfl

theorem JsonFields.Shows.toMessage_eq {o : JsonFields} {msg : CMessage} (h : o.Shows msg) :
    o.toMessage = .message msg := by
  obtain ⟨s, htype⟩ := h.type
  unfold toMessage
  rw [h.key.string_eq, h.value.string_eq, h.message.string_eq, htype]
  rfl

/-! ## The header -/

theorem length_htonl (n : ℕ) : (htonl n).length = 4 := rfl

/-- A length that is an `int` arrives as it was sent. -/
theorem ntohl_htonl {n : ℕ} (hn : n < 2 ^ 31) : ntohl (htonl n) = n := by
  have hfold : (htonl n).foldl (fun n b => n * 256 + b.toNat) 0 = n := by
    simp only [htonl, List.foldl_cons, List.foldl_nil, UInt8.toNat_ofNat']
    omega
  unfold ntohl
  rw [hfold, Int.bmod_eq_of_le (by omega) (by omega)]

/-! ## The round trip -/

/-- **No piece ends within the header or within the text.** -/
def Unsplit (size : ℕ) (conn : Connection) : Prop :=
  ∀ i, (conn.take i).flatten.length = 0 ∨ (conn.take i).flatten.length = 4
    ∨ 4 + size ≤ (conn.take i).flatten.length

variable {json : JsonC} {msg : CMessage} {conn rest : Connection} {piece l more : List UInt8}

/-- The piece that the next call of `read` gets bytes of. -/
def Connection.front (conn : Connection) : List UInt8 := conn.headD []

/-- A call of `read` gets no more than the first piece has. -/
theorem Connection.length_read (conn : Connection) (n : ℕ) :
    (conn.read n).1.length = min n conn.front.length := by
  cases conn with
  | nil => exact (Nat.min_zero n).symm
  | cons piece rest => exact List.length_take

/-- **What one call of `read` gets** if all of it is in the first piece. -/
theorem Connection.read_eq (hconn : conn.flatten = l ++ more)
    (hall : l.length ≤ conn.front.length) :
    (conn.read l.length).1 = l ∧ (conn.read l.length).2.flatten = more := by
  cases conn with
  | nil =>
    obtain ⟨rfl, rfl⟩ := List.append_eq_nil_iff.mp hconn.symm
    exact ⟨rfl, rfl⟩
  | cons piece rest =>
    change l.length ≤ piece.length at hall
    have hpiece : piece.take l.length = l := by
      have htake := congrArg (List.take l.length) hconn
      rwa [List.flatten_cons, List.take_append_of_le_length hall, List.take_left] at htake
    have hrest : piece.drop l.length ++ rest.flatten = more := by
      have hdrop := congrArg (List.drop l.length) hconn
      rwa [List.flatten_cons, List.drop_append_of_le_length hall, List.drop_left] at hdrop
    refine ⟨hpiece, ?_⟩
    rw [← hrest]
    show (if piece.drop l.length = [] then rest else piece.drop l.length :: rest).flatten = _
    split
    · rename_i hnil
      rw [hnil]
      rfl
    · rfl

/-- **The pieces as the two calls of `read` see them**: the header is in the first, and
the text in the one that is first then. -/
theorem unsplit_iff {n : ℕ} (hpieces : [] ∉ conn) (hlen : 4 + n ≤ conn.flatten.length) :
    Unsplit n conn ↔ 4 ≤ conn.front.length ∧ n ≤ (conn.read 4).2.front.length := by
  cases conn with
  | nil =>
    rw [List.flatten_nil, List.length_nil] at hlen
    omega
  | cons piece rest =>
    have hpiece : 0 < piece.length :=
      List.length_pos_iff.mpr fun heq => hpieces (heq ▸ List.mem_cons_self)
    have hsecond : (Connection.read (piece :: rest) 4).2.front.length
        = if piece.length ≤ 4 then (Connection.front rest).length else piece.length - 4 := by
      show (Connection.front (if piece.drop 4 = [] then rest else piece.drop 4 :: rest)).length = _
      simp only [List.drop_eq_nil_iff]
      split
      · rfl
      · exact List.length_drop
    rw [hsecond]
    show _ ↔ 4 ≤ piece.length ∧ _
    constructor
    · intro h
      have hone := h 1
      have htwo := h 2
      cases rest with
      | nil =>
        simp only [List.flatten_cons, List.flatten_nil, List.append_nil, List.take_succ_cons,
          List.take_nil] at hlen hone
        split
        · omega
        · omega
      | cons next rest =>
        have hnext : 0 < next.length := List.length_pos_iff.mpr fun heq =>
          hpieces (heq ▸ List.mem_cons_of_mem piece List.mem_cons_self)
        simp only [List.take_succ_cons, List.take_zero, List.flatten_cons, List.flatten_nil,
          List.append_nil, List.length_append] at hone htwo
        show 4 ≤ piece.length ∧ n ≤ if piece.length ≤ 4 then next.length else _
        split
        · omega
        · omega
    · rintro ⟨hfour, hn⟩ i
      cases i with
      | zero => exact .inl rfl
      | succ i =>
        rw [List.take_succ_cons, List.flatten_cons, List.length_append]
        split at hn
        · -- the first piece is the header, and the second begins with the text
          cases rest with
          | nil =>
            rw [List.take_nil, List.flatten_nil, List.length_nil]
            exact .inr (.inl (by omega))
          | cons next rest =>
            change n ≤ next.length at hn
            cases i with
            | zero =>
              rw [List.take_zero, List.flatten_nil, List.length_nil]
              exact .inr (.inl (by omega))
            | succ i =>
              rw [List.take_succ_cons, List.flatten_cons, List.length_append]
              exact .inr (.inr (by omega))
        · exact .inr (.inr (by omega))

/-- **The frame is read** if the two calls of `read` get all of it, and what was behind
the array is behind the text. -/
theorem receive_eq (hsize : (json.toJsonString msg).strlen < 2 ^ 31)
    (hsent : conn.flatten = kvmessageSend json msg ++ more) {room : ℕ}
    (hroom : (json.toJsonString msg).strlen ≤ room) (hheader : 4 ≤ conn.front.length)
    (htext : (json.toJsonString msg).strlen ≤ (conn.read 4).2.front.length) {m : ByteMemory}
    {buffer : ℕ} {behind : CString}
    (hbehind : m.Holds (buffer + (json.toJsonString msg).strlen) behind.stored) :
    ∃ m' : ByteMemory, m'.Holds buffer ((json.toJsonString msg).bytes ++ behind.stored)
      ∧ receive json room m buffer conn = .fields (json.tokenerParse m' buffer) := by
  unfold kvmessageSend at hsent
  rw [List.append_assoc] at hsent
  obtain ⟨hread, hrest⟩ := Connection.read_eq hsent hheader
  rw [length_htonl] at hread hrest
  have hbody : ((conn.read 4).2.read (json.toJsonString msg).strlen).1
      = (json.toJsonString msg).bytes := (Connection.read_eq hrest htext).1
  have hlength : (json.toJsonString msg).bytes.length = (json.toJsonString msg).strlen := rfl
  refine ⟨m.transfer (.ofList (json.toJsonString msg).bytes 0) buffer 0
    (json.toJsonString msg).strlen, ByteMemory.holds_append.mpr ⟨?_, ?_⟩, ?_⟩
  · exact ByteMemory.holds_transfer (ByteMemory.holds_ofList _ 0) le_rfl
  · exact (ByteMemory.agreeOutside_transfer _ _ _ _ _).holds hbehind (.inl le_rfl)
  · unfold receive
    dsimp only
    rw [hread, length_htonl, if_neg (Nat.lt_irrefl 4), ntohl_htonl hsize, if_neg (by omega),
      Int.toNat_natCast, hbody, hlength, if_neg (Int.lt_irrefl _)]

/-- The message without fields, which is also what is made of a refused text. -/
def CMessage.zero : CMessage := ⟨0, none, none, none⟩

/-- **A message arrives exactly if it arrives in one piece**, or its header in one and its
text in another, there is room for the text, and the tokener does not stumble over what is
behind it in memory. Texts of the library are shorter than `INT_MAX` bytes. -/
theorem kvmessage_roundTrip_iff (hsize : (json.toJsonString msg).strlen < 2 ^ 31)
    (hpieces : [] ∉ conn) (hsent : conn.flatten = kvmessageSend json msg ++ more) (room : ℕ)
    {m : ByteMemory} {buffer : ℕ} {behind : CString}
    (hbehind : m.Holds (buffer + (json.toJsonString msg).strlen) behind.stored) :
    kvmessageParse json room m buffer conn = .message msg
      ↔ Unsplit (json.toJsonString msg).strlen conn ∧ (json.toJsonString msg).strlen ≤ room
        ∧ (TokenerAccepts (json.toJsonString msg) behind ∨ msg = .zero) := by
  have hlength : 4 + (json.toJsonString msg).strlen ≤ conn.flatten.length := by
    rw [hsent]
    unfold kvmessageSend CString.strlen
    rw [List.length_append, List.length_append, length_htonl]
    omega
  rw [unsplit_iff hpieces hlength, ← and_assoc]
  by_cases hall : (4 ≤ conn.front.length
      ∧ (json.toJsonString msg).strlen ≤ (conn.read 4).2.front.length)
      ∧ (json.toJsonString msg).strlen ≤ room
  · rw [and_iff_right hall]
    obtain ⟨⟨hheader, htext⟩, hroom⟩ := hall
    obtain ⟨m', hholds, hreceive⟩ := receive_eq hsize hsent hroom hheader htext hbehind
    unfold kvmessageParse
    rw [hreceive]
    show JsonFields.toMessage _ = _ ↔ _
    by_cases hacc : TokenerAccepts (json.toJsonString msg) behind
    · exact iff_of_true (json.faithful msg m' buffer behind hholds hacc).toMessage_eq (.inl hacc)
    · rw [json.refuses msg m' buffer behind hholds hacc, or_iff_right hacc]
      show ParseResult.message .zero = _ ↔ _
      rw [ParseResult.message.injEq, eq_comm]
  · refine iff_of_false (fun hparse => hall ?_) fun h => hall h.1
    unfold kvmessageParse receive at hparse
    dsimp only at hparse
    by_cases hheader : 4 ≤ conn.front.length
    · have hread : (conn.read 4).1 = htonl (json.toJsonString msg).strlen := by
        unfold kvmessageSend at hsent
        rw [List.append_assoc] at hsent
        exact (Connection.read_eq hsent hheader).1
      rw [hread, length_htonl, if_neg (Nat.lt_irrefl 4), ntohl_htonl hsize,
        Int.toNat_natCast, Connection.length_read] at hparse
      split at hparse
      · cases hparse
      · split at hparse
        · cases hparse
        · exact ⟨⟨hheader, by omega⟩, by omega⟩
    · rw [Connection.length_read, if_pos (by omega)] at hparse
      cases hparse

/-! ## A library that meets the assumptions

Every byte of a string is marked, and another mark ends the string. -/

/-- A text that says where it ends. -/
def marked (l : List UInt8) : List UInt8 := l.flatMap (fun b => [34, b]) ++ [39]

/-- A field that may be missing. -/
def markedField : Option CString → List UInt8
  | none => [45]
  | some s => 43 :: marked s.bytes

/-- A number, in unary. -/
def unary (n : Int) : List UInt8 := (if n < 0 then 45 else 43) :: List.replicate n.natAbs 49

/-- A message. -/
def markedText (msg : CMessage) : List UInt8 :=
  marked (unary msg.type) ++ (markedField msg.key ++ (markedField msg.value
    ++ markedField msg.message))

theorem marked_append_inj {l l' r r' : List UInt8} (h : marked l ++ r = marked l' ++ r') :
    l = l' ∧ r = r' := by
  induction l generalizing l' with
  | nil =>
    cases l' with
    | nil => exact ⟨rfl, by simpa [marked] using h⟩
    | cons c l' => simp [marked] at h
  | cons b l ih =>
    cases l' with
    | nil => simp [marked] at h
    | cons c l' =>
      simp only [marked, List.flatMap_cons, List.cons_append, List.nil_append, List.append_assoc,
        List.cons.injEq, true_and] at h
      obtain ⟨hl, hr⟩ := @ih l' (by simpa [marked] using h.2)
      exact ⟨by rw [h.1, hl], hr⟩

theorem markedField_append_inj {f f' : Option CString} {r r' : List UInt8}
    (h : markedField f ++ r = markedField f' ++ r') : f = f' ∧ r = r' := by
  cases f with
  | none =>
    cases f' with
    | none => exact ⟨rfl, by simpa [markedField] using h⟩
    | some s => simp [markedField] at h
  | some s =>
    cases f' with
    | none => simp [markedField] at h
    | some s' =>
      simp only [markedField, List.cons_append, List.cons.injEq, true_and] at h
      obtain ⟨hs, hr⟩ := marked_append_inj h
      exact ⟨congrArg some (CString.ext_bytes hs), hr⟩

theorem unary_inj {n n' : Int} (h : unary n = unary n') : n = n' := by
  have hlength := congrArg List.length h
  unfold unary at h hlength
  simp only [List.length_cons, List.length_replicate, Nat.add_right_cancel_iff] at hlength
  have hsign := (List.cons.inj h).1
  split at hsign <;> split at hsign
  · omega
  · exact absurd hsign (by decide)
  · exact absurd hsign (by decide)
  · omega

theorem markedText_append_inj {msg msg' : CMessage} {r r' : List UInt8}
    (h : markedText msg ++ r = markedText msg' ++ r') : msg = msg' ∧ r = r' := by
  unfold markedText at h
  simp only [List.append_assoc] at h
  obtain ⟨htype, h⟩ := marked_append_inj h
  obtain ⟨hkey, h⟩ := markedField_append_inj h
  obtain ⟨hvalue, h⟩ := markedField_append_inj h
  obtain ⟨hmessage, hrest⟩ := markedField_append_inj h
  cases msg
  cases msg'
  cases unary_inj htype
  cases hkey
  cases hvalue
  cases hmessage
  exact ⟨rfl, hrest⟩

theorem marked_noNul {l : List UInt8} (h : 0 ∉ l) : 0 ∉ marked l := by
  unfold marked
  simpa [List.mem_flatMap] using h

theorem markedField_noNul (f : Option CString) : 0 ∉ markedField f := by
  cases f with
  | none => decide
  | some s =>
    unfold markedField
    simpa using marked_noNul s.noNul

theorem markedText_noNul (msg : CMessage) : 0 ∉ markedText msg := by
  have hunary : 0 ∉ unary msg.type := by
    unfold unary
    split <;> simp [List.mem_replicate]
  unfold markedText
  simp only [List.mem_append, not_or]
  exact ⟨marked_noNul hunary, markedField_noNul _, markedField_noNul _, markedField_noNul _⟩

/-- The text of a message. -/
def markedString (msg : CMessage) : CString := ⟨markedText msg, markedText_noNul msg⟩

/-- One string stands at an address. -/
theorem holds_stored_inj {m : ByteMemory} {a : ℕ} {s t : CString} (hs : m.Holds a s.stored)
    (ht : m.Holds a t.stored) : s = t := by
  wlog hle : s.stored.length ≤ t.stored.length generalizing s t
  · exact (this ht hs (Nat.le_of_not_le hle)).symm
  · obtain ⟨rest, hrest⟩ := hs.exists_append ht hle
    have hscan := s.takeWhile_stored_append rest
    rw [hrest, ← List.append_nil t.stored, t.takeWhile_stored_append] at hscan
    exact CString.ext_bytes hscan.symm

/-- **A text and what is behind it** are one string, and can be told apart in it. -/
theorem markedText_unique {m : ByteMemory} {a : ℕ} {msg msg' : CMessage} {behind behind' : CString}
    (h : m.Holds a (markedText msg ++ behind.stored))
    (h' : m.Holds a (markedText msg' ++ behind'.stored)) : msg = msg' ∧ behind = behind' := by
  have hnul (msg : CMessage) (behind : CString) : 0 ∉ markedText msg ++ behind.bytes := fun hmem =>
    (List.mem_append.mp hmem).elim (markedText_noNul msg) behind.noNul
  have hsame : (⟨_, hnul msg behind⟩ : CString) = ⟨_, hnul msg' behind'⟩ := by
    refine holds_stored_inj (m := m) (a := a) ?_ ?_
    · rwa [CString.stored, List.append_assoc]
    · rwa [CString.stored, List.append_assoc]
  obtain ⟨hmsg, hbehind⟩ := markedText_append_inj (congrArg CString.bytes hsame)
  exact ⟨hmsg, CString.ext_bytes hbehind⟩

open Classical in
/-- **The library**: the tokener finds the message whose text is there. -/
noncomputable def markedJson : JsonC where
  toJsonString := markedString
  tokenerParse m a :=
    let field : Option CString → JsonField
      | none => .absent
      | some s => .value 0 s
    if h : ∃ msg behind, m.Holds a (markedText msg ++ CString.stored behind)
        ∧ TokenerAccepts (markedString msg) behind then
      ⟨.value h.choose.type ⟨[], nofun⟩, field h.choose.key, field h.choose.value,
        field h.choose.message⟩
    else .none
  faithful msg m a behind hholds hacc := by
    have hex : ∃ msg behind, m.Holds a (markedText msg ++ CString.stored behind)
        ∧ TokenerAccepts (markedString msg) behind := ⟨msg, behind, hholds, hacc⟩
    have hsame : hex.choose = msg := by
      obtain ⟨_, hchosen, -⟩ := hex.choose_spec
      exact (markedText_unique hchosen hholds).1
    have hfield (f : Option CString) : (match f with
        | none => JsonField.absent
        | some s => .value 0 s).Shows f := by
      cases f with
      | none => rfl
      | some s => exact ⟨0, rfl⟩
    dsimp only
    rw [dif_pos hex, hsame]
    exact ⟨⟨_, rfl⟩, hfield _, hfield _, hfield _⟩
  refuses msg m a behind hholds hacc := by
    refine dif_neg ?_
    rintro ⟨msg', behind', hholds', hacc'⟩
    obtain ⟨rfl, rfl⟩ := markedText_unique hholds hholds'
    exact hacc hacc'

/-- A GET request for one letter. -/
def letterRequest : CMessage := ⟨0, some letterA, none, none⟩

/-- The bytes of its frame. -/
def letterFrame : List UInt8 := [0, 0, 0, 9, 34, 43, 39, 43, 34, 97, 39, 45, 45]

/-- A memory with a string behind the text of the request. -/
def letterMemory (behind : CString) : ByteMemory := .ofList behind.stored (65536 + 9)

theorem letterMemory_holds (behind : CString) : (letterMemory behind).Holds
    (65536 + (markedJson.toJsonString letterRequest).strlen) behind.stored :=
  ByteMemory.holds_ofList _ _

/-- A comment, a blank and a letter. -/
def commentText : CString := ⟨[47, 42, 42, 47, 32, 97], by decide⟩

theorem kvmessage_roundTrip_letter :
    kvmessageParse markedJson 4096 (letterMemory commentText) 65536
        [letterFrame.take 4, letterFrame.drop 4] = .message letterRequest := by
  refine (kvmessage_roundTrip_iff (by decide) (by decide) (List.append_nil _).symm 4096
    (letterMemory_holds commentText)).mpr ⟨?_, by decide, .inl ⟨by decide, by decide⟩⟩
  rintro (_ | _ | i)
  · decide
  · decide
  · rw [List.take_of_length_le (by simp)]
    decide

/-- A slash and a letter. -/
def strayText : CString := ⟨[47, 120], by decide⟩

/-- **Messages that are not parsed**: two of the bytes of the length arrive first; or
the memory behind the array goes on with `/x`. -/
theorem kvmessageParse_fails :
    kvmessageSend markedJson letterRequest = letterFrame
      ∧ kvmessageParse markedJson 4096 (fun _ => 0) 65536 [letterFrame.take 2, letterFrame.drop 2]
        = .null
      ∧ kvmessageParse markedJson 4096 (letterMemory strayText) 65536 [letterFrame]
        = .message .zero := by
  refine ⟨by decide, rfl, ?_⟩
  have hsent : [letterFrame].flatten = kvmessageSend markedJson letterRequest ++ [] := rfl
  have hroom : (markedJson.toJsonString letterRequest).strlen ≤ 4096 := by decide
  obtain ⟨m', hholds, hreceive⟩ := receive_eq (by decide) hsent hroom (by decide) (by decide)
    (letterMemory_holds strayText)
  have hstray : ¬ TokenerAccepts (markedString letterRequest) strayText := fun h =>
    absurd h.2 (by decide)
  unfold kvmessageParse
  rw [hreceive, markedJson.refuses letterRequest m' 65536 strayText hholds hstray]
  rfl

end Kv
