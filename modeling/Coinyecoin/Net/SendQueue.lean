import Coinyecoin.Basic.Fault
import Coinyecoin.Foundation.ByteStream

/-!
# The send queue of a peer

`PushMessage` puts a header and a payload into the queue, `SocketSendData` hands
the queue to `send`, which may take a part of a buffer or fail. The bytes that
`send` has taken are kept with the state.
-/

namespace Coinyecoin

open Foundation List

/-- What a call of `send` does: it takes bytes, at most this many, or fails, for now or for good. -/
inductive SendResult where
  | took (nBytes : ℕ)
  | wouldBlock
  | broken
deriving DecidableEq, Repr

/-- A message with its serialized header. -/
structure CSerializedNetMsg where
  header : Bytes
  length_header : header.length = 24
  data : Bytes

/-- The sending side of a `CNode`. -/
structure SendSide where
  vSendMsg : List Bytes
  nSendOffset : ℕ
  nSendSize : ℕ
  /-- Whether `hSocket` is valid. -/
  isOpen : Bool
  sent : Bytes

inductive SendEvent where
  | push (msg : CSerializedNetMsg) (results : List SendResult)
  | send (results : List SendResult)

namespace SendSide

/-- The loop of `SocketSendData` over the rest of the queue. Calls of `send` without a result
listed fail for now. -/
def sendLoop : List Bytes → List SendResult → SendSide → Except Fault SendSide
  | [], _, node => .ok { node with vSendMsg := [] }
  | data :: queue, results, node => do
    assertThat (data.length > node.nSendOffset) "data.size() > pnode->nSendOffset"
    if !node.isOpen then .ok { node with vSendMsg := data :: queue }
    else match results.headD .wouldBlock with
      | .took most =>
        let nBytes := min most (data.length - node.nSendOffset)
        let node := { node with
          sent := node.sent ++ (data.drop node.nSendOffset).take nBytes
          nSendOffset := node.nSendOffset + nBytes }
        if node.nSendOffset = data.length then
          sendLoop queue results.tail
            { node with nSendOffset := 0, nSendSize := node.nSendSize - data.length }
        else .ok { node with vSendMsg := data :: queue }
      | .wouldBlock => .ok { node with vSendMsg := data :: queue }
      | .broken => .ok { node with vSendMsg := data :: queue, isOpen := false }

def socketSendData (node : SendSide) (results : List SendResult) : Except Fault SendSide := do
  let node ← sendLoop node.vSendMsg results node
  if node.vSendMsg = [] then
    assertThat (node.nSendOffset = 0) "pnode->nSendOffset == 0"
    assertThat (node.nSendSize = 0) "pnode->nSendSize == 0"
  .ok node

/-- The buffers of a message: an empty payload has none. -/
def buffers (msg : CSerializedNetMsg) : List Bytes :=
  msg.header :: if msg.data = [] then [] else [msg.data]

def pushMessage (node : SendSide) (msg : CSerializedNetMsg) (results : List SendResult) :
    Except Fault SendSide :=
  let pushed := { node with
    nSendSize := node.nSendSize + (msg.data.length + 24)
    vSendMsg := node.vSendMsg ++ buffers msg }
  if node.vSendMsg = [] then pushed.socketSendData results else .ok pushed

def step (node : SendSide) : SendEvent → Except Fault SendSide
  | .push msg results => node.pushMessage msg results
  | .send results => node.socketSendData results

def run (isOpen : Bool) (events : List SendEvent) : Except Fault SendSide :=
  events.foldlM step ⟨[], 0, 0, isOpen, []⟩

/-- All headers and payloads, in push order. -/
def pushedBytes : List SendEvent → Bytes
  | [] => []
  | .push msg _ :: events => msg.header ++ msg.data ++ pushedBytes events
  | .send _ :: events => pushedBytes events

/-- What was pushed is what `send` took and what is left of the queue. No buffer is empty, and the
first one has not been sent in full; if there is none, the offset is zero. -/
structure Queued (pushed : Bytes) (queue : List Bytes) (node : SendSide) : Prop where
  bytes : node.sent ++ queue.flatten.drop node.nSendOffset = pushed
  size : node.nSendSize = queue.flatten.length
  filled : ∀ data ∈ queue, data ≠ []
  offset : node.nSendOffset < (queue.headD [0]).length

variable {node : SendSide} {pushed data : Bytes} {queue : List Bytes}

/-- The first buffer has been sent in full. -/
theorem Queued.next (h : Queued pushed (data :: queue) node) :
    Queued pushed queue { node with
      sent := node.sent ++ data.drop node.nSendOffset
      nSendOffset := 0
      nSendSize := node.nSendSize - data.length } := by
  have hlt : node.nSendOffset < data.length := h.offset
  obtain ⟨-, hqueue⟩ := forall_mem_cons.1 h.filled
  refine ⟨?_, by simp [h.size], hqueue, ?_⟩
  · rw [← h.bytes, flatten_cons, drop_append_of_le_length hlt.le, drop_zero, append_assoc]
  · cases queue with
    | nil => exact Nat.one_pos
    | cons data queue => exact length_pos_iff.2 (hqueue data mem_cons_self)

theorem Queued.sendLoop (h : Queued pushed queue node) (results : List SendResult) :
    Ends (fun _ => False) (fun after => Queued pushed after.vSendMsg after)
      (sendLoop queue results node) := by
  induction queue generalizing results node with
  | nil => exact ⟨h.bytes, h.size, h.filled, h.offset⟩
  | cons data queue ih =>
    have hlt : node.nSendOffset < data.length := h.offset
    have hstays : Queued pushed (data :: queue) { node with vSendMsg := data :: queue } :=
      ⟨h.bytes, h.size, h.filled, h.offset⟩
    rw [SendSide.sendLoop, assertThat_of_true hlt, ok_bind]
    split_ifs
    · exact hstays
    · cases results.headD .wouldBlock with
      | wouldBlock => exact hstays
      | broken => exact ⟨h.bytes, h.size, h.filled, h.offset⟩
      | took most =>
        dsimp only
        split_ifs with hall
        · rw [take_of_length_le (by rw [length_drop]; omega)]
          exact ih h.next results.tail
        · refine ⟨?_, h.size, h.filled, ?_⟩
          · rw [← h.bytes, append_assoc, ← drop_drop, flatten_cons, drop_append_of_le_length hlt.le,
              drop_append_of_le_length (by rw [length_drop]; omega), ← append_assoc (take _ _),
              take_append_drop]
          · rw [headD_cons]
            dsimp only at hall ⊢
            omega

theorem Queued.socketSendData (h : Queued pushed node.vSendMsg node) (results : List SendResult) :
    Ends (fun _ => False) (fun after => Queued pushed after.vSendMsg after)
      (node.socketSendData results) := by
  refine (h.sendLoop results).bind fun after hafter => ?_
  dsimp only
  split_ifs with hnil
  · have hoffset := hafter.offset
    have hsize : after.nSendSize = 0 := by rw [hafter.size, hnil]; rfl
    rw [hnil] at hoffset
    rw [assertThat_of_true (Nat.lt_one_iff.1 hoffset), assertThat_of_true hsize]
    exact hafter
  · exact hafter

theorem Queued.push (h : Queued pushed queue node) (msg : CSerializedNetMsg) :
    Queued (pushed ++ (msg.header ++ msg.data)) (queue ++ buffers msg) { node with
      nSendSize := node.nSendSize + (msg.data.length + 24)
      vSendMsg := queue ++ buffers msg } := by
  have hheader : 0 < msg.header.length := msg.length_header.symm ▸ by decide
  have hbuffers : (buffers msg).flatten = msg.header ++ msg.data ∧
      ∀ data ∈ buffers msg, data ≠ [] := by
    have hne := length_pos_iff.1 hheader
    rw [buffers]
    split_ifs with hdata
    · simp [hdata, hne]
    · simp [hdata, hne]
  have hoffset : node.nSendOffset ≤ queue.flatten.length ∧
      node.nSendOffset < ((queue ++ buffers msg).headD [0]).length := by
    have hlt := h.offset
    cases queue with
    | nil =>
      rw [Nat.lt_one_iff.1 hlt]
      exact ⟨Nat.zero_le _, hheader⟩
    | cons data queue =>
      rw [headD_cons] at hlt
      exact ⟨by simp; omega, hlt⟩
  refine ⟨?_, ?_, fun data hdata => ?_, hoffset.2⟩
  · rw [flatten_append, hbuffers.1, ← h.bytes, append_assoc, drop_append_of_le_length hoffset.1]
  · rw [flatten_append, hbuffers.1, length_append, length_append, msg.length_header, h.size]
    dsimp only
    omega
  · exact (mem_append.1 hdata).elim (h.filled data) (hbuffers.2 data)

theorem Queued.pushMessage (h : Queued pushed node.vSendMsg node) (msg : CSerializedNetMsg)
    (results : List SendResult) :
    Ends (fun _ => False)
      (fun after => Queued (pushed ++ (msg.header ++ msg.data)) after.vSendMsg after)
      (node.pushMessage msg results) := by
  rw [SendSide.pushMessage]
  split_ifs
  · exact Queued.socketSendData (h.push msg) results
  · exact h.push msg

theorem Queued.run (h : Queued pushed node.vSendMsg node) (events : List SendEvent) :
    Ends (fun _ => False)
      (fun after => Queued (pushed ++ pushedBytes events) after.vSendMsg after)
      (events.foldlM step node) := by
  induction events generalizing node pushed with
  | nil =>
    rw [pushedBytes, append_nil]
    exact h
  | cons event events ih =>
    rw [foldlM_cons]
    cases event with
    | push msg results =>
      rw [pushedBytes, ← append_assoc]
      exact (h.pushMessage msg results).bind fun _ hafter => ih hafter
    | send results => exact (h.socketSendData results).bind fun _ hafter => ih hafter

/-- No assert fires, the bytes that `send` has taken are a prefix of the ones pushed, and
`nSendSize` counts the bytes in the queue. -/
theorem run_sends (isOpen : Bool) (events : List SendEvent) :
    ∃ node, run isOpen events = .ok node ∧ node.sent <+: pushedBytes events ∧
      node.nSendSize = node.vSendMsg.flatten.length := by
  have hstart : Queued [] [] ⟨[], 0, 0, isOpen, []⟩ := ⟨rfl, rfl, by simp, Nat.one_pos⟩
  obtain ⟨node, hrun, h⟩ := (@Queued.run ⟨[], 0, 0, isOpen, []⟩ [] hstart events).returns
  exact ⟨node, hrun, ⟨_, h.bytes⟩, h.size⟩

end SendSide

end Coinyecoin
