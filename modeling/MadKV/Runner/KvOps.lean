import Mathlib.Tactic

/-!
# Calls and responses of the workload interface

The runner drives a client process with calls and reads responses back. Keys
and values are Rust strings, that is, valid Unicode text; `String` has the same
values, and its order is the byte order (`Support.lt_iff_bytes_lt`).
-/

namespace MadKV.Runner

/-- KV operation call type. -/
inductive KvCall
  | put (key value : String)
  | swap (key value : String)
  | get (key : String)
  | scan (keyStart keyEnd : String)
  | delete (key : String)
  | stop
deriving DecidableEq, Repr

/-- KV operation response type. -/
inductive KvResp
  | put (key : String) (found : Bool)
  | swap (key : String) (oldValue : Option String)
  | get (key : String) (value : Option String)
  | scan (keyStart keyEnd : String) (entries : List (String × String))
  | delete (key : String) (found : Bool)
  | stop
deriving DecidableEq, Repr

/-- The value update made by a call: nothing for reads, the removal of the
key's value for Delete, and the new value for Put and Swap. -/
def KvCall.updateInfo : KvCall → Option (String × Option String)
  | .put key value => some (key, some value)
  | .swap key value => some (key, some value)
  | .delete key => some (key, none)
  | _ => none

end MadKV.Runner
