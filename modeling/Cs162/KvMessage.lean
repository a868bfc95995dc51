import Cs162.CString

/-!
# Constants and messages of the key-value store

The vocabulary every component shares: length limits, error codes and the
texts they are reported with, message types, and the message structure.

A C pointer field of a message is null, points to something, or was never
written – `malloc` leaves it as it finds it, and so does a local that is
declared and not initialised. `Ptr` keeps the three apart, because the code
reads fields of the third kind: reading one is no step the model can take,
while passing one on is.
-/

namespace Kv

/-- `MAX_KEYLEN`. -/
def maxKeyLen : ℕ := 1024

/-- `MAX_VALLEN`. -/
def maxValLen : ℕ := 1024

/-! ## Error codes and their texts -/

/-- `ERRKEYLEN`. -/
def errKeyLen : Int := -11

/-- `ERRVALLEN`. -/
def errValLen : Int := -12

/-- `ERRNOKEY`. -/
def errNoKey : Int := -13

/-- `ERRINVLDMSG`. -/
def errInvldMsg : Int := -14

/-- `ERRFILACCESS`. -/
def errFilAccess : Int := -17

/-- `ENOENT`, the `errno` of a file operation on a missing file. -/
def enoent : Int := 2

/-- `MSG_SUCCESS`. -/
def msgSuccess : String := "SUCCESS"

/-- `ERRMSG_NO_KEY`. -/
def errMsgNoKey : String := "ERROR: NO KEY"

/-- `ERRMSG_KEY_LEN`. -/
def errMsgKeyLen : String := "ERROR: IMPROPER KEY LENGTH"

/-- `ERRMSG_VAL_LEN`. -/
def errMsgValLen : String := "ERROR: VALUE TOO LONG"

/-- `ERRMSG_INVALID_REQUEST`. -/
def errMsgInvalidRequest : String := "ERROR: INVALID REQUEST"

/-- `ERRMSG_GENERIC_ERROR`. -/
def errMsgGenericError : String := "ERROR: UNABLE TO PROCESS REQUEST"

/-- `GETMSG`: the text an error code is reported with. -/
def getMsg (error : Int) : String :=
  if error = errKeyLen then errMsgKeyLen
  else if error = errValLen then errMsgValLen
  else if error = errNoKey then errMsgNoKey
  else errMsgGenericError

/-! ## Messages -/

/-- **Message types.** `other` is an integer on the wire that names no
enumerator: `kvmessage_parse` stores whatever integer it reads. -/
inductive MsgType where
  | getReq | putReq | delReq | getResp | resp | ack | abort | commit
  | voteCommit | voteAbort | register | info
  | other (code : Int)
  deriving DecidableEq

/-- **A pointer field**: null, pointing to something, or never written. -/
inductive Ptr (α : Type) where
  | null
  | ref (a : α)
  | uninit
  deriving DecidableEq

/-- What a pointer points to, where dereferencing it is defined. -/
def Ptr.deref {α : Type} : Ptr α → Option α
  | ref a => some a
  | _ => none

@[simp] theorem Ptr.deref_ref {α : Type} (a : α) : (Ptr.ref a).deref = some a := rfl

@[simp] theorem Ptr.deref_null {α : Type} : (Ptr.null : Ptr α).deref = none := rfl

/-- **A message** (`kvmessage_t`). -/
structure KvMessage where
  /-- The type of the message. -/
  type : MsgType
  /-- The key, where the type has one. -/
  key : Ptr CString
  /-- The value, where the type has one. -/
  value : Ptr CString
  /-- The text reported to the client. -/
  message : Ptr String
  deriving DecidableEq

/-- A message fresh from `calloc`: type `0`, which is `GETREQ`, and null
fields. -/
def KvMessage.zero : KvMessage := ⟨.getReq, .null, .null, .null⟩

/-! ## Small messages, for concrete runs -/

/-- The string of one letter, `a`. -/
def letterA : CString := ⟨[97], by decide⟩

/-- The string of one letter, `b`. -/
def letterB : CString := ⟨[98], by decide⟩

/-- A PUT of one letter under itself. -/
def putA : KvMessage :=
  { KvMessage.zero with type := .putReq, key := .ref letterA, value := .ref letterA }

/-- A COMMIT. -/
def commitMsg : KvMessage := { KvMessage.zero with type := .commit }

/-- An ABORT. -/
def abortMsg : KvMessage := { KvMessage.zero with type := .abort }

end Kv
