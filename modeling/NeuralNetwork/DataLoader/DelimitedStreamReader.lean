import NeuralNetwork.Lib.Cpp

/-!
# DelimitedStreamReader

The reader of `data_loader/stream_reader/delimited_stream_reader.h`: it cuts a stream that comes in
chunks into tokens, each ended by one of two characters, and keeps the token that is not ended yet.
-/

namespace DataLoader

open Cpp

/-- `token_overflow_error`. -/
inductive StreamError where
  | tokenOverflow
deriving DecidableEq, Repr

structure DelimitedStreamReaderConfig where
  delimChar : Byte
  eorChar : Byte
  maxTokenSz : Option Nat

structure DelimitedStreamReader where
  stream : List Byte
  delimChar : Byte
  eorChar : Byte
  maxTokenSz : Option Nat

namespace DelimitedStreamReader

def make (config : DelimitedStreamReaderConfig) : DelimitedStreamReader where
  stream := []
  delimChar := config.delimChar
  eorChar := config.eorChar
  maxTokenSz := config.maxTokenSz

variable (r : DelimitedStreamReader)

def getDelimitedStream (appStr : List Byte) : List Byte × DelimitedStreamReader :=
  if r.stream ≠ [] then (r.stream ++ appStr, { r with stream := [] }) else (appStr, r)

/-- What the loop of `put` keeps: `first`, `rs` and the reader. -/
structure Scan where
  first : Nat
  rs : List (List Byte)
  reader : DelimitedStreamReader

def Scan.next (streamArg : List Byte) (s : Scan) (i : Nat) : Scan :=
  match streamArg[i]? with
  | none => s
  | some c =>
    if c = s.reader.delimChar ∨ c = s.reader.eorChar then
      let (token, reader) := s.reader.getDelimitedStream ((streamArg.take i).drop s.first)
      { first := i + 1, rs := s.rs ++ [token], reader := reader }
    else s

/-- A throw leaves what was put in the reader. -/
def put (streamArg : List Byte) : DelimitedStreamReader × Except StreamError (List (List Byte)) :=
  let s := (List.range streamArg.length).foldl (Scan.next streamArg) ⟨0, [], r⟩
  let r := { s.reader with stream := s.reader.stream ++ streamArg.drop s.first }
  match r.maxTokenSz with
  | some maxTokenSz => if r.stream.length > maxTokenSz then (r, .error .tokenOverflow) else (r, .ok s.rs)
  | none => (r, .ok s.rs)

/-- The tokens that a sequence of `put` calls returns, up to the first that throws, and the unfinished
tail. -/
def run : DelimitedStreamReader → List (List Byte) → List (List Byte) × Except StreamError (List Byte)
  | r, [] => ([], .ok r.stream)
  | r, chunk :: chunks =>
    match r.put chunk with
    | (_, .error err) => ([], .error err)
    | (r, .ok rs) =>
      let (rest, tail) := run r chunks
      (rs ++ rest, tail)

end DelimitedStreamReader

end DataLoader
