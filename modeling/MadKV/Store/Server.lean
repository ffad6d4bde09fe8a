import MadKV.Store.InMemory

/-!
# The server

The messages of the protocol and the handlers of `ServiceImpl`. Each handler
runs under the one mutex and returns `Status::OK`, so it is a function from the
store to the reply and the store afterwards.
-/

namespace MadKV.Store

open Runner Support

structure PutRequest where
  key : String
  newValue : String
deriving DecidableEq, Repr

structure PutReply where
  found : Bool
deriving DecidableEq, Repr

structure SwapRequest where
  key : String
  newValue : String
deriving DecidableEq, Repr

structure SwapReply where
  found : Bool
  oldValue : String
deriving DecidableEq, Repr

structure GetRequest where
  key : String
deriving DecidableEq, Repr

structure GetReply where
  found : Bool
  value : String
deriving DecidableEq, Repr

structure ScanRequest where
  startKey : String
  endKey : String
deriving DecidableEq, Repr

structure KVPair where
  key : String
  value : String
deriving DecidableEq, Repr

structure ScanReply where
  list : List KVPair
deriving DecidableEq, Repr

structure DeleteRequest where
  key : String
deriving DecidableEq, Repr

structure DeleteReply where
  found : Bool
deriving DecidableEq, Repr

namespace ServiceImpl

variable (store : InMemoryKVStore)

def put (request : PutRequest) : PutReply × InMemoryKVStore :=
  let (found, store) := store.put request.key request.newValue
  (⟨found⟩, store)

def swap (request : SwapRequest) : SwapReply × InMemoryKVStore :=
  match store.swap request.key request.newValue with
  | (some oldValue, store) => (⟨true, oldValue⟩, store)
  -- a cleared string field is empty
  | (none, store) => (⟨false, ""⟩, store)

def get (request : GetRequest) : GetReply × InMemoryKVStore :=
  match store.get request.key with
  | some value => (⟨true, value⟩, store)
  | none => (⟨false, ""⟩, store)

def scan (request : ScanRequest) : ScanReply × InMemoryKVStore :=
  let list := store.scan request.startKey request.endKey
  (⟨list.map fun p => ⟨p.1, p.2⟩⟩, store)

def delete (request : DeleteRequest) : DeleteReply × InMemoryKVStore :=
  let (found, store) := store.delete request.key
  (⟨found⟩, store)

theorem put_spec (request : PutRequest) :
    (put store request).1 = ⟨(store.contents.lookup request.key).isSome⟩ ∧
      (put store request).2.contents = store.contents.insert request.key request.newValue := by
  obtain ⟨hfound, hstore⟩ := store.put_spec request.key request.newValue
  simp [put, hfound, hstore]

theorem swap_spec (request : SwapRequest) :
    (swap store request).1 = ⟨(store.contents.lookup request.key).isSome,
        (store.contents.lookup request.key).getD ""⟩ ∧
      (swap store request).2.contents = store.contents.insert request.key request.newValue := by
  obtain ⟨hold, hstore⟩ := store.swap_spec request.key request.newValue
  rw [← hold, ← hstore, swap]
  cases store.swap request.key request.newValue with
  | mk old store' => cases old <;> exact ⟨rfl, rfl⟩

theorem get_spec (request : GetRequest) :
    get store request = (⟨(store.contents.lookup request.key).isSome,
      (store.contents.lookup request.key).getD ""⟩, store) := by
  rw [← store.get_spec request.key, get]
  cases store.get request.key <;> rfl

theorem scan_spec (request : ScanRequest) :
    scan store request = (⟨(between store.contents request.startKey request.endKey).map
      fun p => ⟨p.1, p.2⟩⟩, store) := by
  rw [scan, store.scan_spec]

theorem delete_spec (request : DeleteRequest) :
    (delete store request).1 = ⟨(store.contents.lookup request.key).isSome⟩ ∧
      (delete store request).2.contents = store.contents.erase request.key := by
  obtain ⟨hfound, hstore⟩ := store.delete_spec request.key
  simp [delete, hfound, hstore]

end ServiceImpl

/-! ## All five handlers as one -/

/-- A request of any kind. -/
inductive Request
  | put (request : PutRequest)
  | swap (request : SwapRequest)
  | get (request : GetRequest)
  | scan (request : ScanRequest)
  | delete (request : DeleteRequest)
deriving DecidableEq, Repr

/-- A reply of any kind. -/
inductive Reply
  | put (reply : PutReply)
  | swap (reply : SwapReply)
  | get (reply : GetReply)
  | scan (reply : ScanReply)
  | delete (reply : DeleteReply)
deriving DecidableEq, Repr

def ServiceImpl.handle (store : InMemoryKVStore) : Request → Reply × InMemoryKVStore
  | .put request => (ServiceImpl.put store request).map .put id
  | .swap request => (ServiceImpl.swap store request).map .swap id
  | .get request => (ServiceImpl.get store request).map .get id
  | .scan request => (ServiceImpl.scan store request).map .scan id
  | .delete request => (ServiceImpl.delete store request).map .delete id

/-- The abstract call a request stands for. -/
def Request.call : Request → KvCall
  | .put request => .put request.key request.newValue
  | .swap request => .swap request.key request.newValue
  | .get request => .get request.key
  | .scan request => .scan request.startKey request.endKey
  | .delete request => .delete request.key

/-- The reply a finite map owes to a request. -/
def Request.answer : Request → Spec.KvMap → Reply
  | .put request, m => .put ⟨(m.lookup request.key).isSome⟩
  | .swap request, m =>
    .swap ⟨(m.lookup request.key).isSome, (m.lookup request.key).getD ""⟩
  | .get request, m =>
    .get ⟨(m.lookup request.key).isSome, (m.lookup request.key).getD ""⟩
  | .scan request, m =>
    .scan ⟨(between m request.startKey request.endKey).map fun p => ⟨p.1, p.2⟩⟩
  | .delete request, m => .delete ⟨(m.lookup request.key).isSome⟩

/-- The sequential specification of the service: a finite map. -/
def specHandle (m : Spec.KvMap) (request : Request) : Reply × Spec.KvMap :=
  (request.answer m, (Spec.apply m request.call).2)

/-- Every handler answers as the finite map does and changes the store as the map changes. -/
theorem specHandle_contents (store : InMemoryKVStore) (request : Request) :
    specHandle store.contents request =
      ((ServiceImpl.handle store request).1, (ServiceImpl.handle store request).2.contents) := by
  cases request with
  | put request =>
    obtain ⟨hreply, hstore⟩ := ServiceImpl.put_spec store request
    simp [specHandle, Request.answer, Request.call, Spec.apply, ServiceImpl.handle, hreply, hstore]
  | swap request =>
    obtain ⟨hreply, hstore⟩ := ServiceImpl.swap_spec store request
    simp [specHandle, Request.answer, Request.call, Spec.apply, ServiceImpl.handle, hreply, hstore]
  | get request =>
    simp [specHandle, Request.answer, Request.call, Spec.apply, ServiceImpl.handle,
      ServiceImpl.get_spec store request]
  | scan request =>
    simp [specHandle, Request.answer, Request.call, Spec.apply, ServiceImpl.handle,
      ServiceImpl.scan_spec store request]
  | delete request =>
    obtain ⟨hreply, hstore⟩ := ServiceImpl.delete_spec store request
    simp [specHandle, Request.answer, Request.call, Spec.apply, ServiceImpl.handle, hreply, hstore]

end MadKV.Store
