import Libchop.Indexer.Methods
import Libchop.Framework.Refinement
import Libchop.Store.BlockMap
import Mathlib.Data.List.AList

/-!
# The block server

`chop-block-server.c` serves a local store over RPC.  Its handlers return pointers to static
variables, of which they do not always set every field.  `store-sunrpc.c` is the client.
-/

namespace Libchop

inductive RpcRequest where
  | sayHello
  | blocksExist (keys : List Bytes)
  | writeBlock (key block : Bytes)
  | readBlock (key : Bytes)
  | sync
  | close
deriving DecidableEq, Repr

inductive RpcReply where
  | int (result : Int)
  | booleans (flags : List Bool)
  | block (status : Status) (contents : Bytes)

structure ServerConfig where
  contentHashEnforced : HashMethod
  noCollisionCheck : Bool

/-- `sizeof exists` in `handle_blocks_exist`. -/
def existsSize : Nat := 32678

/-- The static variables that handlers do not always set: the array of flags, the length in the
reply to `blocks_exist`, and the length in the reply to `read_block`. -/
structure ServerStatics where
  existsFlags : List Bool
  booleansLen : Nat
  contentLen : Nat

/-- The server and its local store. -/
structure BlockServer (σ : Type) where
  statics : ServerStatics
  store : σ

def BlockServer.started {σ : Type} (store : σ) : BlockServer σ :=
  ⟨⟨List.replicate existsSize false, 0, 0⟩, store⟩

section Handlers

variable {σ : Type} (methods : StoreMethods σ)

/-- What the local store says about the keys, of which there may be too many. -/
def queryLocalStore (keys : List Bytes) (store : σ) : Except ChopError (List Bool) × σ :=
  if keys.length ≤ existsSize then
    ((methods.blocksExist keys store).1.map List.ofFn, (methods.blocksExist keys store).2)
  else (.error .storeError, store)

def ServerStatics.afterQuery (statics : ServerStatics) (keys : List Bytes) :
    Except ChopError (List Bool) → ServerStatics
  | .error _ => { statics with existsFlags := List.replicate existsSize false }
  | .ok flags =>
    { statics with
      existsFlags := flags ++ statics.existsFlags.drop flags.length, booleansLen := keys.length }

def handleBlocksExist (keys : List Bytes) (server : BlockServer σ) : List Bool × BlockServer σ :=
  let (answer, store) := queryLocalStore methods keys server.store
  let statics := server.statics.afterQuery keys answer
  (statics.existsFlags.take statics.booleansLen, ⟨statics, store⟩)

def isValidHashKey (hash : HashFunctions) (key buffer : Bytes) (method : HashMethod) :
    Outcome Bool :=
  if method = .none then .done true
  else if chopHashSize method ≠ key.length then .done false
  else
    chopHashBuffer hash method buffer >>= fun digest =>
      .done (key.take (chopHashSize method) = digest)

/-- The end of `handle_write_block`. -/
def writeToLocalStore (key block : Bytes) (server : BlockServer σ) : Int × BlockServer σ :=
  match methods.writeBlock key block server.store with
  | (.ok _, store) => (0, { server with store })
  | (.error _, store) => (-1, { server with store })

def handleWriteBlock (hash : HashFunctions) (config : ServerConfig) (key block : Bytes)
    (server : BlockServer σ) : Outcome (Int × BlockServer σ) :=
  isValidHashKey hash key block config.contentHashEnforced >>= fun valid =>
    if valid = false then .done (-1, server)
    else if config.noCollisionCheck then .done (writeToLocalStore methods key block server)
    else
      match methods.readBlock key server.store with
      | (.error _, store) => .done (writeToLocalStore methods key block { server with store })
      | (.ok contents, store) =>
        if block.length ≠ contents.length ∨ contents ≠ block then .done (-3, { server with store })
        else .done (0, { server with store })

/-- The status, length and contents of the reply are set apart.  The length is an unsigned `int`.  An empty
block has no contents to encode. -/
def handleReadBlock (key : Bytes) (server : BlockServer σ) :
    Outcome ((Status × Bytes) × BlockServer σ) :=
  match methods.readBlock key server.store with
  | (.error err, store) =>
    .done ((.error err, []), ⟨{ server.statics with contentLen := 0 }, store⟩)
  | (.ok contents, store) =>
    if 0 < contents.length then
      let length := contents.length % 2 ^ 32
      .done ((.ok (), contents.take length), ⟨{ server.statics with contentLen := length }, store⟩)
    else if server.statics.contentLen = 0 then .done ((.ok (), []), { server with store })
    else .abort

def handleSync (server : BlockServer σ) : Int × BlockServer σ :=
  match methods.sync server.store with
  | (.ok _, store) => (0, { server with store })
  | (.error _, store) => (-1, { server with store })

/-- The store is never closed. -/
def handleClose (server : BlockServer σ) : Int × BlockServer σ := handleSync methods server

/-- The handler of a request, and the reply that is encoded. -/
def handleRequest (hash : HashFunctions) (config : ServerConfig) (server : BlockServer σ) :
    RpcRequest → Outcome (RpcReply × BlockServer σ)
  | .sayHello => .done (.int 1, server)
  | .blocksExist keys =>
    let (flags, server) := handleBlocksExist methods keys server
    .done (.booleans flags, server)
  | .writeBlock key block =>
    handleWriteBlock methods hash config key block server >>= fun (result, server) =>
      .done (.int result, server)
  | .readBlock key =>
    handleReadBlock methods key server >>= fun ((status, contents), server) =>
      .done (.block status contents, server)
  | .sync =>
    let (result, server) := handleSync methods server
    .done (.int result, server)
  | .close =>
    let (result, server) := handleClose methods server
    .done (.int result, server)

end Handlers

inductive ClientResult where
  | status (err : Status)
  | flags (answer : Except ChopError (List Bool))
  | block (answer : Except ChopError Bytes)

def chopSunrpcBlocksExist (keys : List Bytes) (ret : Option (List Bool)) :
    Except ChopError (List Bool) :=
  match ret with
  | none => .error .storeError
  | some flags => if flags.length ≠ keys.length then .error .storeError else .ok flags

/-- The buffer is pushed what was received. -/
def chopSunrpcReadBlock (ret : Option (Status × Bytes)) : Except ChopError Bytes :=
  match ret with
  | some (.ok _, contents) => .ok contents
  | _ => .error .storeError

/-- The functions that want zero back. -/
def chopSunrpcStatus (ret : Option Int) : Status :=
  if ret = some 0 then .ok () else .error .storeError

def chopSunrpcWriteBlock (ret : Option Int) : Status := chopSunrpcStatus ret

def chopSunrpcSync (ret : Option Int) : Status := chopSunrpcStatus ret

def chopSunrpcClose (ret : Option Int) : Status := chopSunrpcStatus ret

/-- The `hello` call made when the store is opened. -/
def sunrpcHello (ret : Option Int) : Status :=
  match ret with
  | none => .error .storeError
  | some granted => if granted = 0 then .error .storeError else .ok ()

/-- A call that some client makes, and whether the reply reaches it. -/
structure RpcCall where
  request : RpcRequest
  answered : Bool
deriving DecidableEq, Repr

def clientResult (call : RpcCall) (reply : RpcReply) : ClientResult :=
  match call.request, reply with
  | .blocksExist keys, .booleans flags =>
    .flags (chopSunrpcBlocksExist keys (if call.answered then some flags else none))
  | .readBlock _, .block status contents =>
    .block (chopSunrpcReadBlock (if call.answered then some (status, contents) else none))
  | .writeBlock _ _, .int result =>
    .status (chopSunrpcWriteBlock (if call.answered then some result else none))
  | .sync, .int result => .status (chopSunrpcSync (if call.answered then some result else none))
  | .close, .int result => .status (chopSunrpcClose (if call.answered then some result else none))
  | .sayHello, .int result => .status (sunrpcHello (if call.answered then some result else none))
  | _, _ => .status (.error .storeError)

/-- A call from the client to the server and back. -/
def serveCall {σ : Type} (methods : StoreMethods σ) (hash : HashFunctions) (config : ServerConfig)
    (server : BlockServer σ) (call : RpcCall) :
    Outcome ((RpcReply × ClientResult) × BlockServer σ) :=
  handleRequest methods hash config server call.request >>= fun (reply, server) =>
    .done ((reply, clientResult call reply), server)

/-- A store in memory that, as the one in the file system, fails on keys that are too long for a
file name. -/
def shortKeyStore : StoreMethods (AList fun _ : Bytes => Bytes) where
  blocksExist keys store :=
    if keys.all fun key => key.length ≤ 160 then
      (.ok fun i => (store.lookup (keys.get i)).isSome, store)
    else (.error (.code 36), store)
  readBlock key store :=
    match store.lookup key with
    | some block => (.ok block, store)
    | none => (.error .storeBlockUnavail, store)
  writeBlock key block store :=
    if key.length ≤ 160 then (.ok (), store.insert key block) else (.error (.code 36), store)
  sync store := (.ok (), store)

/-- Digests of the strings `abc` and `abd`. -/
def sampleHash : HashFunctions :=
  .sha1Table
    [(cString "abc", [169, 153, 62, 54, 71, 6, 129, 106, 186, 62, 37, 113, 120, 80, 194, 108, 156,
        208, 216, 157]),
      (cString "abd", [203, 76, 194, 141, 240, 253, 190, 14, 207, 157, 150, 98, 226, 148, 177, 24, 9,
        42, 87, 53])]
    (by decide)

end Libchop
