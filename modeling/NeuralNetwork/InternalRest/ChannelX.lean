import NeuralNetwork.Lib.Loop
import NeuralNetwork.StlExtension.Stdx

/-!
# The sticky channel container

`StickyChannelContainer` of `internal_rest/network_kernel_mailbox_impl1_channel_x.h`: per channel a
cyclic queue of buffered messages and a deque of waiting consumers. `push` hands its messages to the
waiting consumers before it buffers the rest; `pop` takes buffered messages or queues itself. Each
call is one critical section of the lock. What a call does besides changing the maps (writes to the
arrays of consumers, semaphore releases, dropped messages) is its list of effects.
-/

namespace StickyChannel

open Cpp Loop Stdx

abbrev Channel := BitVec 32

variable {M : Type}

/-- A call of `pop` that waits, with what its `recv_buffer_arr` holds so far. -/
structure Consumer (M : Type) where
  id : Nat
  recvBuffer : List M
  recvBufferCap : Nat

/-- `recv_buffer_arr[(*recv_buffer_arr_sz)++] = m`. -/
def Consumer.receive (c : Consumer M) (m : M) : Consumer M :=
  { c with recvBuffer := c.recvBuffer ++ [m] }

inductive Effect (M : Type) where
  /-- `recv_arr[recv_arr_sz++] = m` for the call `id` of `pop`. -/
  | deliver (id : Nat) (m : M)
  /-- The call of `pop` returns with its array. -/
  | release (c : Consumer M)
  /-- The queue `m :: rest` is full and loses its front. -/
  | drop (m : M) (rest : List M)

structure StickyChannelContainer (M : Type) where
  channelBufferMap : Channel → Option (List M)
  consumerBufferMap : Channel → Option (List (Consumer M))
  pow2MaxChannelBufferSz : Nat
  maxConsumeSz : Nat

def make (maxChannelBufferSz maxConsumeSz : Nat) : Except Fault (StickyChannelContainer M) :=
  if maxChannelBufferSz = 0 then .error (.invalidArgument "INVALID_ARGUMENT")
  else if maxConsumeSz = 0 then .error (.invalidArgument "INVALID_ARGUMENT")
  else do
    let pow2 ← ceil2 maxChannelBufferSz
    .ok ⟨fun _ => none, fun _ => none, pow2, maxConsumeSz⟩

/-- The capacity of a new `pow2_cyclic_queue`. -/
def StickyChannelContainer.queueCapacity (s : StickyChannelContainer M) : Nat :=
  2 ^ ulog2 s.pow2MaxChannelBufferSz

/-- `std::unordered_map` operations at one key. -/
def setAt {α : Type} (map : Channel → Option α) (channel : Channel) (a : α) :
    Channel → Option α :=
  fun c => if c = channel then some a else map c

/-! ## push -/

/-- What the loop over the consumers leaves: the messages not handed out, the consumers left, the
flag `need_release_front` and the effects so far. -/
structure HandOut (M : Type) where
  baseStrArr : List M
  consumers : List (Consumer M)
  needReleaseFront : Bool
  effects : List (Effect M)

def handOut (debug : Bool) : List M → List (Consumer M) → Bool → List (Effect M) →
    Except Fault (HandOut M)
  | [], consumers, need, effects => .ok ⟨[], consumers, need, effects⟩
  | ms, [], need, effects => .ok ⟨ms, [], need, effects⟩
  | m :: ms, front :: others, _, effects =>
    if debug ∧ front.recvBuffer.length = front.recvBufferCap then .error .abort
    else
      let front := front.receive m
      let effects := effects ++ [.deliver front.id m]
      if front.recvBuffer.length = front.recvBufferCap then
        handOut debug ms others false (effects ++ [.release front])
      else handOut debug ms (front :: others) true effects

/-- Releasing a front consumer that is partly filled when the messages run out. -/
def releaseFront (h : HandOut M) : Except Fault (HandOut M) :=
  if h.needReleaseFront then
    match h.consumers with
    | [] => .error .outOfBounds
    | front :: others => .ok ⟨h.baseStrArr, others, false, h.effects ++ [.release front]⟩
  else .ok h

/-- `push_back` of a `pow2_cyclic_queue`, under `nothrow_log`. -/
def pushBack (capacity : Nat) (queue : List M) (m : M) : Except Fault (List M) :=
  if queue.length = capacity then .error .abort else .ok (queue ++ [m])

/-- The loop that buffers the rest, dropping the oldest message of a full queue. -/
def bufferRest (capacity : Nat) : List M → List M → List (Effect M) →
    Except Fault (List M × List (Effect M))
  | [], queue, effects => .ok (queue, effects)
  | m :: ms, queue, effects =>
    if queue.length = capacity then
      match queue with
      | [] => .error .outOfBounds
      | oldest :: rest => do
        let queue ← pushBack capacity rest m
        bufferRest capacity ms queue (effects ++ [.drop oldest rest])
    else do
      let queue ← pushBack capacity queue m
      bufferRest capacity ms queue effects

/-- The first half of `push`: the messages that waiting consumers take. -/
def serveConsumers (debug : Bool) (s : StickyChannelContainer M) (channel : Channel)
    (strArr : List M) : Except Fault (StickyChannelContainer M × HandOut M) :=
  match s.consumerBufferMap channel with
  | none => .ok (s, ⟨strArr, [], false, []⟩)
  | some consumers => do
    let h ← handOut debug strArr consumers false []
    let h ← releaseFront h
    .ok ({ s with consumerBufferMap := setAt s.consumerBufferMap channel h.consumers }, h)

def push (debug : Bool) (s : StickyChannelContainer M) (channel : Channel) (strArr : List M) :
    Except Fault (StickyChannelContainer M × List (Effect M)) :=
  if debug ∧ strArr.length > s.maxConsumeSz then .error .abort
  else do
    let (s, h) ← serveConsumers debug s channel strArr
    if h.baseStrArr.length = 0 then .ok (s, h.effects)
    else do
      let queue := (s.channelBufferMap channel).getD []
      let (queue, effects) ← bufferRest s.queueCapacity h.baseStrArr queue h.effects
      .ok ({ s with channelBufferMap := setAt s.channelBufferMap channel queue }, effects)

/-! ## pop -/

/-- The critical section of the call `id` of `pop`. A call that finds no message waits for its
release. -/
def pop (s : StickyChannelContainer M) (channel : Channel) (id recvArrCap : Nat) :
    StickyChannelContainer M × List (Effect M) :=
  if recvArrCap = 0 then (s, [])
  else
    match s.channelBufferMap channel with
    | some (m :: ms) =>
      let queue := m :: ms
      let fulfillableSz := min recvArrCap queue.length
      let received := queue.take fulfillableSz
      ({ s with channelBufferMap := setAt s.channelBufferMap channel (queue.drop fulfillableSz) },
        received.map (.deliver id) ++ [.release ⟨id, received, recvArrCap⟩])
    | _ =>
      let consumers := (s.consumerBufferMap channel).getD [] ++ [⟨id, [], recvArrCap⟩]
      ({ s with consumerBufferMap := setAt s.consumerBufferMap channel consumers }, [])

/-! ## Runs -/

inductive Op (M : Type) where
  | push (channel : Channel) (strArr : List M)
  | pop (channel : Channel) (recvArrCap : Nat)

def Op.channel : Op M → Channel
  | push c _ => c
  | pop c _ => c

/-- One critical section; `id` names the call. -/
def step (debug : Bool) (s : StickyChannelContainer M) (id : Nat) :
    Op M → Except Fault (StickyChannelContainer M × List (Effect M))
  | .push c ms => push debug s c ms
  | .pop c cap => .ok (pop s c id cap)

/-- The calls so far, in the order of their critical sections, each with its effects. -/
abbrev History (M : Type) := List (Op M × List (Effect M))

/-- The states that interleavings of critical sections reach from a constructed container; a call is
named by its position in the history. -/
inductive Reach (debug : Bool) (maxChannelBufferSz maxConsumeSz : Nat) :
    StickyChannelContainer M → History M → Prop
  | make {s} : make maxChannelBufferSz maxConsumeSz = .ok s →
      Reach debug maxChannelBufferSz maxConsumeSz s []
  | step {s s' hist op effects} : Reach debug maxChannelBufferSz maxConsumeSz s hist →
      step debug s hist.length op = .ok (s', effects) →
      Reach debug maxChannelBufferSz maxConsumeSz s' (hist ++ [(op, effects)])

end StickyChannel
