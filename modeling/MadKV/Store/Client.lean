import MadKV.Runner.ReadLine
import MadKV.Store.Server
import MadKV.Spec.Interface

/-!
# The client

`main` of `client.cc`: it reads command lines from its input, performs one
blocking RPC for each, and prints the response. The server is a stub over some
world, so that RPCs may fail and other clients may interfere.
-/

namespace MadKV.Store

open Runner Support

/-- An RPC status that is not `OK`. -/
structure Status where
  errorCode : ℕ
  errorMessage : String
deriving DecidableEq, Repr

/-- The generated stub: each RPC acts on the world and returns a reply or a failure. -/
structure Stub (World : Type) where
  put : PutRequest → World → Except Status PutReply × World
  swap : SwapRequest → World → Except Status SwapReply × World
  get : GetRequest → World → Except Status GetReply × World
  scan : ScanRequest → World → Except Status ScanReply × World
  delete : DeleteRequest → World → Except Status DeleteReply × World

/-- The server itself as the world, with all RPCs succeeding. -/
def serverStub : Stub InMemoryKVStore where
  put request store :=
    (.ok (ServiceImpl.put store request).1, (ServiceImpl.put store request).2)
  swap request store :=
    (.ok (ServiceImpl.swap store request).1, (ServiceImpl.swap store request).2)
  get request store :=
    (.ok (ServiceImpl.get store request).1, (ServiceImpl.get store request).2)
  scan request store :=
    (.ok (ServiceImpl.scan store request).1, (ServiceImpl.scan store request).2)
  delete request store :=
    (.ok (ServiceImpl.delete store request).1, (ServiceImpl.delete store request).2)

namespace Client

variable {World : Type}

/-- `std::isspace` in the classic locale. -/
def isspace (c : Char) : Bool :=
  c = ' ' || c = '\t' || c = '\n' || c = '\x0b' || c = '\x0c' || c = '\r'

theorem isWhitespace_of_isspace (c : Char) (h : isspace c = true) :
    isWhitespace c = true := by
  simp only [isspace, Bool.or_eq_true, decide_eq_true_eq] at h
  rcases h with ((((rfl | rfl) | rfl) | rfl) | rfl) | rfl <;> decide

def splitBySpace (line : String) : List String :=
  (words isspace line.toList).map String.ofList

/-- What follows a command line: the next one, or the exit of the process. -/
inductive Flow
  | next
  | exit (code : ℕ)
deriving DecidableEq, Repr

/-- What the process printed so far, and the world it leaves. -/
structure Progress (World : Type) where
  out : String
  err : String
  flow : Flow
  world : World

def invalid (command : String) (world : World) : Progress World :=
  ⟨"", "Invalid " ++ command ++ "\n", .exit 1, world⟩

def rpcFail (operation : String) (status : Status) (world : World) : Progress World :=
  ⟨"", operation ++ " failed with error code: " ++ toString status.errorCode ++ ", message: " ++
    status.errorMessage ++ "\n", .exit 2, world⟩

def doPut (stub : Stub World) (key value : String) (world : World) : Progress World :=
  match stub.put ⟨key, value⟩ world with
  | (.error status, world) => rpcFail "Put" status world
  | (.ok reply, world) =>
    ⟨"PUT " ++ key ++ (if reply.found then " found\n" else " not_found\n"), "", .next, world⟩

def doSwap (stub : Stub World) (key value : String) (world : World) : Progress World :=
  match stub.swap ⟨key, value⟩ world with
  | (.error status, world) => rpcFail "Swap" status world
  | (.ok reply, world) =>
    ⟨"SWAP " ++ key ++ (if reply.found then " " ++ reply.oldValue ++ "\n" else " null\n"), "",
      .next, world⟩

def doGet (stub : Stub World) (key : String) (world : World) : Progress World :=
  match stub.get ⟨key⟩ world with
  | (.error status, world) => rpcFail "Get" status world
  | (.ok reply, world) =>
    ⟨if reply.found then "GET " ++ key ++ " " ++ reply.value ++ "\n"
      else "GET " ++ key ++ " null\n", "", .next, world⟩

def doDelete (stub : Stub World) (key : String) (world : World) : Progress World :=
  match stub.delete ⟨key⟩ world with
  | (.error status, world) => rpcFail "Delete" status world
  | (.ok reply, world) =>
    ⟨"DELETE " ++ key ++ (if reply.found then " found\n" else " not_found\n"), "", .next, world⟩

/-- The loop over `reply.list()`. -/
def printPairs : List KVPair → String
  | [] => ""
  | p :: rest => "  " ++ p.key ++ " " ++ p.value ++ "\n" ++ printPairs rest

def doScan (stub : Stub World) (startKey endKey : String) (world : World) : Progress World :=
  match stub.scan ⟨startKey, endKey⟩ world with
  | (.error status, world) => rpcFail "Scan" status world
  | (.ok reply, world) =>
    ⟨"SCAN " ++ startKey ++ " " ++ endKey ++ " BEGIN\n" ++ printPairs reply.list ++ "SCAN END\n",
      "", .next, world⟩

/-- The body of the loop of `main`, for one input line. -/
def runLine (stub : Stub World) (line : String) (world : World) : Progress World :=
  match splitBySpace line with
  | [] => ⟨"", "", .next, world⟩
  | command :: args =>
    if command = "PUT" then
      match args with
      | [key, value] => doPut stub key value world
      | _ => invalid "PUT" world
    else if command = "SWAP" then
      match args with
      | [key, value] => doSwap stub key value world
      | _ => invalid "SWAP" world
    else if command = "GET" then
      match args with
      | [key] => doGet stub key world
      | _ => invalid "GET" world
    else if command = "DELETE" then
      match args with
      | [key] => doDelete stub key world
      | _ => invalid "DELETE" world
    else if command = "SCAN" then
      match args with
      | [startKey, endKey] => doScan stub startKey endKey world
      | _ => invalid "SCAN" world
    else if command = "STOP" then
      match args with
      | [] => ⟨"STOP\n", "", .exit 0, world⟩
      | _ => invalid "STOP" world
    else ⟨"", "Unknown command: " ++ command ++ "\n", .next, world⟩

/-- The loop of `main` over the lines read so far. -/
def runLines (stub : Stub World) : List String → World → Progress World
  | [], world => ⟨"", "", .next, world⟩
  | line :: rest, world =>
    let first := runLine stub line world
    match first.flow with
    | .exit _ => first
    | .next =>
      let later := runLines stub rest first.world
      { later with out := first.out ++ later.out, err := first.err ++ later.err }

/-- Repeated `std::getline` on the input. -/
def getlines (stdin : String) : List String :=
  (lines '\n' stdin.toList).map String.ofList

def main (stub : Stub World) (stdin : String) (world : World) : Progress World :=
  let done := runLines stub (getlines stdin) world
  match done.flow with
  | .exit _ => done
  -- the input ended
  | .next => { done with flow := .exit 0 }

end Client

end MadKV.Store
