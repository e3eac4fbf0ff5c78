import NeuralNetwork.DataLoader.DelimitedStreamReader
import NeuralNetwork.Lib.Command

/-!
# Source loaders

`FileLoader` and `S3Loader` of `data_loader/source`. A call of `get` reads a chunk of the object and
returns the tokens that it ends. What the environment does during the call is given with it (`Attempt`):
a standard stream over the object gives all the bytes that it is asked for or fewer, and a request of
the object may fail.
-/

namespace DataLoader

open Cpp Command

/-! ## Exceptions -/

inductive LoaderError where
  | invalidArgument
  | badResourcePointer
  | authentication
  | badState
  | softFileRead
  | connection
  | hardFileRead
  | other
  | tokenOverflow
  | corruptedLoader
  | operationCanceled
deriving DecidableEq, Repr

namespace LoaderError

/-- A `retryable_error`. -/
def isRetryable : LoaderError → Bool
  | softFileRead | connection => true
  | _ => false

def exceptionId : LoaderError → String
  | invalidArgument => "invalid_argument_base"
  | badResourcePointer => "bad_resource_pointer_error"
  | authentication => "authentication_error"
  | badState => "bad_state_error"
  | softFileRead => "soft_file_read_error"
  | connection => "connection_error"
  | hardFileRead => "hard_file_read_error"
  | other => "other_error"
  | tokenOverflow => "token_overflow_error"
  | corruptedLoader => "runtime_error_base"
  | operationCanceled => "__unidentified_exception"

end LoaderError

/-! ## Streams -/

/-- The error type of a `GetObjectOutcome`. -/
inductive S3Errors where
  | noSuchKey
  | noSuchBucket
  | accessDenied
  | networkConnection
  | unknown
deriving DecidableEq, Repr

/-- What the environment does in a call of a source's `get`. -/
structure Attempt where
  /-- How the first request of the object fails. -/
  connect : Option S3Errors
  /-- How many bytes the read gives at most; `none` for all it is asked for. -/
  granted : Option Nat
  /-- How the request after a bad read fails. -/
  reconnect : Option S3Errors
  /-- The operation was canceled by the time of the call. -/
  canceled : Bool
deriving DecidableEq, Repr

structure IStream where
  content : List Byte
  pos : Nat
  failbit : Bool
  gcount : Nat

namespace IStream

variable (s : IStream)

def ofContent (content : List Byte) : IStream := ⟨content, 0, false, 0⟩

def seekg (pos : Nat) : IStream := if s.failbit then s else { s with pos }

/-- The bytes that a read of `sz` bytes extracts. -/
def extract (granted : Option Nat) (sz : Nat) : List Byte :=
  if s.failbit then []
  else
    let bytes := (s.content.drop s.pos).take sz
    match granted with
    | none => bytes
    | some n => bytes.take n

/-- `read(buf.data(), buf.size())`. A read that gets less than it asks for sets `failbit`. -/
def read (granted : Option Nat) (buf : List Byte) : List Byte × IStream :=
  let bytes := s.extract granted buf.length
  (bytes ++ buf.drop bytes.length,
    { s with
      pos := s.pos + bytes.length
      failbit := s.failbit || bytes.length < buf.length
      gcount := bytes.length })

end IStream

def clamp (v lo hi : Nat) : Nat := if v < lo then lo else if hi < v then hi else v

/-! ## FileLoader -/

structure FileLoaderConfig where
  delimConfig : DelimitedStreamReaderConfig
  unitByteSzHint : Option Nat

structure FileLoader where
  delimStreamer : DelimitedStreamReader
  fStream : IStream
  txUnitSz : Nat
  wasCompleted : Bool
  isBadState : Bool
  expectedSz : Nat
  totalReadBytes : Nat

namespace FileLoader

def MAX_READ_SZ : Nat := 1 <<< 30
def MIN_TX_UNIT_SZ : Nat := 1 <<< 10
def MAX_TX_UNIT_SZ : Nat := 1 <<< 30

def unitSz (hint : Option Nat) : Nat :=
  match hint with
  | some sz => clamp sz MIN_TX_UNIT_SZ MAX_TX_UNIT_SZ
  | none => MIN_TX_UNIT_SZ

/-- The constructor, for a file with this content if there is one. -/
def make (config : FileLoaderConfig) (file : Option (List Byte)) : Except LoaderError FileLoader :=
  match file with
  | none => .error .badResourcePointer
  | some content => .ok {
      delimStreamer := .make config.delimConfig
      fStream := .ofContent content
      txUnitSz := unitSz config.unitByteSzHint
      wasCompleted := false
      isBadState := false
      expectedSz := content.length
      totalReadBytes := 0 }

def get (attempt : Attempt) (txHintSz : Nat) :
    Command FileLoader Fault LoaderError (Option (List (List Byte))) := do
  let l ← getState
  if l.isBadState then throw .badState
  else if l.wasCompleted then pure none
  else
    let txByteSz := min (sizeT (txHintSz * l.txUnitSz)) MAX_READ_SZ
    if txByteSz = 0 then pure (some [])
    else
      let (buf, fStream) := l.fStream.read attempt.granted (List.replicate txByteSz 32)
      let readBytes := fStream.gcount
      let buf := buf.take readBytes
      let l := { l with fStream, totalReadBytes := l.totalReadBytes + readBytes }
      if buf.length = 0 then
        if l.totalReadBytes ≠ l.expectedSz then do
          setState { l with isBadState := true }
          throw .hardFileRead
        else do
          setState { l with wasCompleted := true }
          pure none
      else
        let (delimStreamer, r) := l.delimStreamer.put buf
        match r with
        | .ok rs => do
          setState { l with delimStreamer }
          pure (some rs)
        | .error .tokenOverflow => do
          setState { l with delimStreamer, isBadState := true }
          throw .tokenOverflow

end FileLoader

/-! ## S3Loader -/

structure S3LoaderConfig where
  delimConfig : DelimitedStreamReaderConfig
  unitByteSzHint : Option Nat

/-- A `GetObjectOutcome` that is a success; no other is kept. -/
structure GetObjectOutcome where
  body : IStream
  contentLength : Nat

structure BufferPointer where
  offset : Nat
  sz : Nat

structure S3Loader where
  delimStreamReader : DelimitedStreamReader
  objectOutcome : Option GetObjectOutcome
  txUnitSz : Nat
  wasCompleted : Bool
  isBadState : Bool
  softReadErrorSz : Nat
  /-- The content of the object that `s3_object_pointer` names. -/
  object : List Byte
  bufPointer : Option BufferPointer

namespace S3Loader

def SOFT_READ_ERROR_THRESHOLD : Nat := 1 <<< 3
def MAX_READ_SZ : Nat := 1 <<< 24
def MIN_TX_UNIT_SZ : Nat := 1 <<< 10
def MAX_TX_UNIT_SZ : Nat := 1 <<< 24

def unitSz (hint : Option Nat) : Nat :=
  match hint with
  | some sz => clamp sz MIN_TX_UNIT_SZ MAX_TX_UNIT_SZ
  | none => MIN_TX_UNIT_SZ

def make (config : S3LoaderConfig) (object : List Byte) : S3Loader where
  delimStreamReader := .make config.delimConfig
  objectOutcome := none
  txUnitSz := unitSz config.unitByteSzHint
  wasCompleted := false
  isBadState := false
  softReadErrorSz := 0
  object := object
  bufPointer := none

abbrev M (α : Type) := Command S3Loader Fault LoaderError α

def requestError : S3Errors → LoaderError
  | .noSuchKey => .authentication
  | .noSuchBucket => .badResourcePointer
  | .accessDenied => .authentication
  | .networkConnection => .connection
  | .unknown => .other

def initializeObjectOutcome (connect : Option S3Errors) : M Unit := do
  let l ← getState
  match connect with
  | some err => throw (requestError err)
  | none => setState { l with
      objectOutcome := some { body := .ofContent l.object, contentLength := l.object.length } }

/-- `*this->object_outcome`. -/
def getOutcome : M GetObjectOutcome := do
  let l ← getState
  match l.objectOutcome with
  | some obj => pure obj
  | none => wrong .undefined

def setBody (obj : GetObjectOutcome) (body : IStream) : M Unit := do
  let l ← getState
  setState { l with objectOutcome := some { obj with body } }

def getOutcomeStreamContentLength : M Nat := do
  let obj ← getOutcome
  pure obj.contentLength

def seekOutcomeStream (pos : Nat) : M Unit := do
  let obj ← getOutcome
  let body := obj.body.seekg pos
  setBody obj body
  if body.failbit then throw .other else pure ()

def readOutcomeStream (granted : Option Nat) (buf : List Byte) : M (List Byte) := do
  let obj ← getOutcome
  let (buf, body) := obj.body.read granted buf
  setBody obj body
  pure buf

def gcountOutcomeStream : M Nat := do
  let obj ← getOutcome
  pure obj.body.gcount

def setBad (err : LoaderError) : M Unit := do
  let l ← getState
  setState { l with isBadState := true }
  throw err

def reviveObjectOutcomeAndThrowSizeInconsistency (reconnect : Option S3Errors) : M Unit := do
  let l ← getState
  match l.bufPointer with
  | none => wrong .abort
  | some bufPointer => do
    initializeObjectOutcome reconnect
    let expectedSz ← getOutcomeStreamContentLength
    if expectedSz ≠ bufPointer.sz then setBad .hardFileRead else pure ()

def punchOneSoftReadError : M Unit := do
  let l ← getState
  if l.softReadErrorSz = SOFT_READ_ERROR_THRESHOLD then setBad .hardFileRead
  else do
    setState { l with softReadErrorSz := l.softReadErrorSz + 1 }
    throw .softFileRead

/-- Every exception is revivable. -/
def reviveObjectOutcomeOnError (reconnect : Option S3Errors) : M Unit := initializeObjectOutcome reconnect

/-! ### The parts of `get` -/

def ensureOutcome (connect : Option S3Errors) : M Unit := do
  let l ← getState
  if l.objectOutcome.isNone then do
    initializeObjectOutcome connect
    let sz ← getOutcomeStreamContentLength
    let l ← getState
    setState { l with bufPointer := some { offset := 0, sz } }
  else pure ()

/-- The `try` block that reads, and its handler. -/
def readAt (attempt : Attempt) (offset : Nat) (buf : List Byte) : M (List Byte × Nat) :=
  tryCatch (do
    seekOutcomeStream offset
    let buf ← readOutcomeStream attempt.granted buf
    let readByteSz ← gcountOutcomeStream
    pure (buf, readByteSz)) fun err => do
      reviveObjectOutcomeOnError attempt.reconnect
      throw err

def checkRead (attempt : Attempt) (remSz readByteSz : Nat) : M Unit :=
  if readByteSz > remSz then setBad .other
  else if readByteSz = 0 then do
    reviveObjectOutcomeAndThrowSizeInconsistency attempt.reconnect
    punchOneSoftReadError
  else pure ()

/-- `buf.resize(read_byte_sz)` and what follows it. -/
def deliver (bufPointer : BufferPointer) (buf : List Byte) (readByteSz : Nat) :
    M (Option (List (List Byte))) := do
  let l ← getState
  let bufPointer := { bufPointer with offset := bufPointer.offset + readByteSz }
  let (delimStreamReader, r) := l.delimStreamReader.put (buf.take readByteSz)
  match r with
  | .ok rs => do
    setState { l with bufPointer := some bufPointer, delimStreamReader }
    pure (some rs)
  | .error .tokenOverflow => do
    setState { l with bufPointer := some bufPointer, delimStreamReader, isBadState := true }
    throw .tokenOverflow

def get (attempt : Attempt) (txHintSz : Nat) : M (Option (List (List Byte))) := do
  let l ← getState
  if l.isBadState then throw .badState
  else if l.wasCompleted then pure none
  else
    let txByteSz := min (sizeT (txHintSz * l.txUnitSz)) MAX_READ_SZ
    if txByteSz = 0 then pure (some [])
    else do
      ensureOutcome attempt.connect
      let l ← getState
      match l.bufPointer with
      | none => do
        setBad .other
        pure none
      | some bufPointer =>
        if bufPointer.offset = bufPointer.sz then do
          setState { l with wasCompleted := true }
          pure none
        else do
          let remSz := bufPointer.sz - bufPointer.offset
          let (buf, readByteSz) ←
            readAt attempt bufPointer.offset (List.replicate (min txByteSz remSz) 32)
          checkRead attempt remSz readByteSz
          deliver bufPointer buf readByteSz

end S3Loader

/-! ## GenericReader -/

/-- The loader that a `GenericReader` holds. -/
inductive Source where
  | file (loader : FileLoader)
  | s3 (loader : S3Loader)

namespace Source

def get (attempt : Attempt) (txHintSz : Nat) :
    Command Source Fault LoaderError (Option (List (List Byte))) := fun source =>
  match source with
  | file loader => ((FileLoader.get attempt txHintSz).zoom (fun _ => loader) fun l _ => file l) source
  | s3 loader => ((S3Loader.get attempt txHintSz).zoom (fun _ => loader) fun l _ => s3 l) source

end Source

end DataLoader
