import Alib.ByteBlock

/-!
# The datagram server

`udp_server` of `udp.c` receives datagrams on a bound socket and hands each to
a callback, until the callback or `udp_server_stop` ends it.  After an
interrupted call `continue` leads to the condition of the loop, which calls the
callback: with the result -1 as a length and with the sender and the pointer of
the datagram before.  Errors return without closing the socket.  What the error
functions return is left to them; only which of them is called is recorded.
-/

namespace Alib
namespace UdpServer

structure Remote where
  sinAddr : BitVec 32
  sinPort : BitVec 16
  deriving DecidableEq, Repr

/-- How `recvfrom` goes. -/
inductive Recv where
  | datagram (remote : Remote) (data : List Byte)
  | interrupted
  | failed
  deriving DecidableEq, Repr

def maxUdpSize : ℕ := 65535

/-- `(size_t)buf_len` after a call that returned -1 -/
def badLen : ℕ := 2 ^ 64 - 1

/-- What the callback is called with: the sender, which nobody has written
before the first datagram, the block or the buffer of the server with its
bytes, and the length. -/
structure UdpCall where
  remote : Option Remote
  block : Option Addr
  bytes : List Byte
  bufLen : ℕ
  deriving DecidableEq, Repr

inductive UdpEnd where
  | socketError
  | bindError
  | closeError
  | recvError
  | mallocError
  | stopped
  | waiting
  deriving DecidableEq, Repr

/-- The answers of the callbacks, whether `udp_server_stop` has been called
when the condition is tested after a call, and whether the system calls
succeed. -/
structure Callbacks where
  startup : Option Bool
  func : ℕ → UdpCall → Bool
  go : ℕ → Bool
  socketFails : Bool
  bindFails : Bool
  closeFails : Bool

/-- `tmp` points to the buffer until a block is allocated. -/
structure UdpState where
  buf : List Byte
  tmp : Option ByteBlock
  remote : Option Remote
  sockOpen : Bool
  calls : List UdpCall
  world : World

/-- The buffer after a datagram was received into it. -/
def received (buf data : List Byte) : List Byte :=
  data.take maxUdpSize ++ buf.drop (data.take maxUdpSize).length

def UdpState.call (st : UdpState) (bufLen : ℕ) : UdpCall where
  remote := st.remote
  block := st.tmp.map ByteBlock.addr
  bytes := (st.tmp.map ByteBlock.bytes).getD st.buf
  bufLen := bufLen

/-- `if(close(sock)) return ...;` before the last return -/
def closeSock (cb : Callbacks) (st : UdpState) : UdpEnd × UdpState :=
  (if cb.closeFails then .closeError else .stopped,
    { st with sockOpen := false })

/-- The condition of the loop; `none` goes on. -/
def condition (cb : Callbacks) (bufLen : ℕ) (st : UdpState) :
    Option (UdpEnd × UdpState) × UdpState :=
  let call := st.call bufLen
  let n := st.calls.length
  let st := { st with calls := st.calls ++ [call] }
  if cb.func n call && cb.go n then (none, st)
  else (some (closeSock cb st), st)

section Calls

variable {E : Env} {cb : Callbacks} {useMalloc : Bool} {st : UdpState}
  {data : List Byte} {events : List Recv}

/-- The sender and the bytes, or nothing when the length is the result of an
interrupted call. -/
def UdpCall.seen (call : UdpCall) : Option (Option Remote × List Byte) :=
  if call.bufLen = badLen then none
  else some (call.remote, call.bytes.take call.bufLen)

def Recv.seen : Recv → Option (Option Remote × List Byte)
  | .datagram remote data => some (some remote, data.take maxUdpSize)
  | _ => none

/-- The blocks which the callback was given. -/
def UdpState.blocks (st : UdpState) : List Addr :=
  st.calls.filterMap UdpCall.block

/-- `a_malloc` gets a block for the datagram: the datagram is not empty, and
the request of this number is granted. -/
def Stored (E : Env) (request : ℕ) (data : List Byte) : Prop :=
  data.take maxUdpSize ≠ [] ∧
    E.grants request (data.take maxUdpSize).length = true

def Recv.isDatagram : Recv → Bool
  | .datagram _ _ => true
  | _ => false

/-- Every datagram gets a block, the first with the request of this number. -/
def Stores (E : Env) : ℕ → List Recv → Prop
  | _, [] => True
  | request, .datagram _ data :: rest =>
      Stored E request data ∧ Stores E (request + 1) rest
  | request, _ :: rest => Stores E request rest

/-- An interruption follows a datagram. -/
def Reuses : List Recv → Prop
  | [] => False
  | .datagram _ _ :: rest => .interrupted ∈ rest
  | _ :: rest => Reuses rest

/-- The buffer is there, and the last block was given to the callback. -/
structure ServerInv (useMalloc : Bool) (st : UdpState) : Prop where
  length_eq : st.buf.length = maxUdpSize
  tmp_none : useMalloc = false → st.tmp = none
  tmp_mem : ∀ block, st.tmp = some block → block.addr ∈ st.blocks
  bound : ∀ a ∈ st.blocks, a < st.world.requests
  isOpen : st.sockOpen = true

/-- A datagram after it was received and copied. -/
structure Copied (E : Env) (useMalloc : Bool) (remote : Remote)
    (data : List Byte) (st after : UdpState) : Prop where
  buf : after.buf = received st.buf data
  remote : after.remote = some remote
  calls : after.calls = st.calls
  sockOpen : after.sockOpen = st.sockOpen
  requests_le : st.world.requests ≤ after.world.requests
  call_bytes : (after.call (data.take maxUdpSize).length).bytes.take
    (data.take maxUdpSize).length = data.take maxUdpSize
  plain : useMalloc = false → after.tmp = none
  block : useMalloc = true → Stored E st.world.requests data ∧
    ∃ block, after.tmp = some block ∧ block.addr = st.world.requests ∧
      after.world.requests = st.world.requests + 1

/-- The callback or `udp_server_stop` ended the function. -/
def UdpEnd.IsStop (result : UdpEnd) : Prop :=
  result = .stopped ∨ result = .closeError

/-- What is left of the events tells why the function ended.  So many requests
were made before the first event. -/
def Leaves (E : Env) (useMalloc : Bool) (requests : ℕ)
    (handled rest : List Recv) : UdpEnd → Prop
  | .waiting => rest = []
  | .recvError => ∃ more, rest = .failed :: more
  | .mallocError => useMalloc = true ∧
      ∃ remote data more, rest = .datagram remote data :: more ∧
        ¬ Stored E (requests + handled.countP Recv.isDatagram) data
  | .stopped => handled ≠ []
  | .closeError => handled ≠ []
  | _ => False

/-- With `handled` after `st`, the callback is given no block a second time
exactly when no interruption follows a datagram. -/
def BlocksOnce (useMalloc : Bool) (st : UdpState) (handled : List Recv)
    (after : UdpState) : Prop :=
  useMalloc = true → (after.blocks.Nodup ↔ st.blocks.Nodup ∧
    (st.tmp ≠ none → .interrupted ∉ handled) ∧
    (st.tmp = none → ¬ Reuses handled))

/-- What the loop has done.  The callback was called once for each event that
was handled, and it said to stop in the last call of a loop that it ended and
in no other.  The socket is closed exactly when the callback ended the loop, and
then the result says whether that failed. -/
structure Served (E : Env) (cb : Callbacks) (useMalloc : Bool) (st : UdpState)
    (events handled rest : List Recv) (result : UdpEnd) (after : UdpState) :
    Prop where
  events_eq : events = handled ++ rest
  stores : useMalloc = true → Stores E st.world.requests handled
  calls_prefix : st.calls <+: after.calls
  seen : after.calls.map UdpCall.seen =
    st.calls.map UdpCall.seen ++ handled.map Recv.seen
  blocks : BlocksOnce useMalloc st handled after
  leaves : Leaves E useMalloc st.world.requests handled rest result
  isOpen : after.sockOpen = true ↔ ¬ result.IsStop
  closes : result.IsStop →
    result = if cb.closeFails then .closeError else .stopped
  answers : ∀ n call, after.calls[n]? = some call → st.calls.length ≤ n →
    ((cb.func n call && cb.go n) = true ↔
      (n + 1 < after.calls.length ∨ ¬ result.IsStop))

/-- The state after the callback was called. -/
def UdpState.called (st : UdpState) (bufLen : ℕ) : UdpState :=
  { st with calls := st.calls ++ [st.call bufLen] }

theorem closeSock_isStop (cb : Callbacks) (st : UdpState) :
    (closeSock cb st).1.IsStop ∧ (closeSock cb st).2.calls = st.calls ∧
      (closeSock cb st).2.sockOpen = false := by
  refine ⟨?_, rfl, rfl⟩
  unfold closeSock UdpEnd.IsStop
  cases cb.closeFails <;> simp

theorem blocks_called (st : UdpState) (bufLen : ℕ) :
    (st.called bufLen).blocks =
      st.blocks ++ (st.tmp.map ByteBlock.addr).toList := by
  cases htmp : st.tmp with
  | none => simp [UdpState.blocks, UdpState.called, UdpState.call, htmp]
  | some block => simp [UdpState.blocks, UdpState.called, UdpState.call, htmp]

/-- The loop ends without handling the next event. -/
theorem Served.nothing {rest : List Recv} {result : UdpEnd}
    {after : UdpState} (hcalls : after.calls = st.calls)
    (hopen : after.sockOpen = true) (hresult : ¬ result.IsStop)
    (hleaves : Leaves E useMalloc st.world.requests [] rest result) :
    Served E cb useMalloc st rest [] rest result after where
  events_eq := rfl
  stores := fun _ => trivial
  calls_prefix := by rw [hcalls]
  seen := by rw [hcalls, List.map_nil, List.append_nil]
  blocks := by
    intro _
    simp [UdpState.blocks, hcalls, Reuses]
  leaves := hleaves
  isOpen := by simp [hopen, hresult]
  closes := fun hstop => absurd hstop hresult
  answers := by
    intro n call hcall hle
    rw [hcalls] at hcall
    have hlt := (List.getElem?_eq_some_iff.mp hcall).1
    omega

/-- The state `mid` in which the callback is called for `recv`. -/
structure Handles (E : Env) (useMalloc : Bool) (recv : Recv) (bufLen : ℕ)
    (st mid : UdpState) : Prop where
  calls : mid.calls = st.calls
  seen : (mid.call bufLen).seen = recv.seen
  block : useMalloc = true →
    (recv = .interrupted ∧ mid.world = st.world ∧ mid.tmp = st.tmp ∧
        ∀ block, st.tmp = some block → block.addr ∈ st.blocks) ∨
      ∃ remote data block, recv = .datagram remote data ∧
        Stored E st.world.requests data ∧
        mid.world.requests = st.world.requests + 1 ∧
        mid.tmp = some block ∧ block.addr ∉ st.blocks
  inv : ServerInv useMalloc (mid.called bufLen)

theorem Handles.blocksOnce {recv : Recv} {bufLen : ℕ} {mid after : UdpState}
    {handled : List Recv} (h : Handles E useMalloc recv bufLen st mid)
    (honce : BlocksOnce useMalloc (mid.called bufLen) handled after) :
    BlocksOnce useMalloc st (recv :: handled) after := by
  intro hmode
  have hblocks := blocks_called mid bufLen
  have hmid : mid.blocks = st.blocks := by
    rw [UdpState.blocks, h.calls, UdpState.blocks]
  have htmp : (mid.called bufLen).tmp = mid.tmp := rfl
  rw [honce hmode, hblocks, hmid, htmp]
  rcases h.block hmode with ⟨rfl, _, hsame, hmem⟩ |
    ⟨remote, data, block, rfl, _, _, hblock, hfresh⟩
  · cases hst : st.tmp with
    | none => simp [hsame, hst, Reuses]
    | some block =>
        -- the block of the datagram before is given again
        have hagain := hmem block hst
        simp only [hsame, hst, Option.map_some, Option.toList_some]
        constructor
        · rintro ⟨hnodup, -⟩
          rw [← List.concat_eq_append, List.nodup_concat] at hnodup
          exact absurd hagain hnodup.1
        · rintro ⟨-, hnever, -⟩
          exact absurd (List.mem_cons_self ..) (hnever (by simp))
  · simp only [hblock, Option.map_some, Option.toList_some]
    rw [← List.concat_eq_append, List.nodup_concat]
    cases hst : st.tmp with
    | none => simp [Reuses, hfresh]
    | some last => simp [hfresh]

theorem Handles.stores {recv : Recv} {bufLen : ℕ} {mid : UdpState}
    {handled : List Recv} (h : Handles E useMalloc recv bufLen st mid)
    (hmode : useMalloc = true) (hstores : Stores E mid.world.requests handled) :
    Stores E st.world.requests (recv :: handled) := by
  rcases h.block hmode with ⟨rfl, hworld, _⟩ |
    ⟨remote, data, block, rfl, hstored, hrequests, _⟩
  · rw [hworld] at hstores
    exact hstores
  · rw [hrequests] at hstores
    exact ⟨hstored, hstores⟩

theorem Handles.leaves {recv : Recv} {bufLen : ℕ} {mid : UdpState}
    {handled rest : List Recv} {result : UdpEnd}
    (h : Handles E useMalloc recv bufLen st mid)
    (hleaves : Leaves E useMalloc mid.world.requests handled rest result) :
    Leaves E useMalloc st.world.requests (recv :: handled) rest result := by
  cases result with
  | mallocError =>
      obtain ⟨hmode, remote, data, more, hrest, hnot⟩ := hleaves
      refine ⟨hmode, remote, data, more, hrest, ?_⟩
      -- the requests so far are those of the datagrams so far
      have hcount : st.world.requests +
          (recv :: handled).countP Recv.isDatagram =
          mid.world.requests + handled.countP Recv.isDatagram := by
        rcases h.block hmode with ⟨rfl, hworld, _⟩ |
          ⟨_, _, _, rfl, _, hrequests, _⟩
        · rw [hworld]
          rfl
        · rw [hrequests, List.countP_cons_of_pos rfl]
          omega
      rw [hcount]
      exact hnot
  | waiting | recvError => exact hleaves
  | stopped | closeError => exact List.cons_ne_nil _ _
  | socketError | bindError => exact hleaves

/-- One event is handled and the loop goes on. -/
theorem Served.cons {recv : Recv} {bufLen : ℕ} {mid after : UdpState}
    {handled rest : List Recv} {result : UdpEnd}
    (h : Handles E useMalloc recv bufLen st mid)
    (hgoes : (cb.func mid.calls.length (mid.call bufLen) &&
      cb.go mid.calls.length) = true)
    (hserved : Served E cb useMalloc (mid.called bufLen) events handled rest
      result after) :
    Served E cb useMalloc st (recv :: events) (recv :: handled) rest result
      after := by
  have hcalled : (mid.called bufLen).calls = st.calls ++ [mid.call bufLen] := by
    rw [← h.calls]
    rfl
  have hprefix := hserved.calls_prefix
  rw [hcalled] at hprefix
  refine ⟨?_, fun hmode => h.stores hmode (hserved.stores hmode), ?_, ?_,
    h.blocksOnce hserved.blocks, h.leaves hserved.leaves, hserved.isOpen,
    hserved.closes, ?_⟩
  · rw [hserved.events_eq, List.cons_append]
  · exact (List.prefix_append _ _).trans hprefix
  · rw [hserved.seen, hcalled, List.map_append, List.map_cons, List.map_nil,
      h.seen, List.append_assoc]
    rfl
  · intro n call hcall hle
    rcases Nat.eq_or_lt_of_le hle with rfl | hlt
    · have hfirst : after.calls[st.calls.length]? =
          some (mid.call bufLen) := by
        obtain ⟨more, hmore⟩ := hprefix
        simp [← hmore]
      rw [hfirst, Option.some_inj] at hcall
      rw [h.calls] at hgoes
      rw [← hcall]
      refine iff_of_true hgoes ?_
      by_cases hstop : result.IsStop
      · left
        -- a loop that the callback ended called it again
        have hne : handled ≠ [] := by
          have hleaves := hserved.leaves
          rcases hstop with rfl | rfl <;> exact hleaves
        have hlength := congrArg List.length hserved.seen
        have hpos := List.length_pos_iff.mpr hne
        simp only [List.length_map, List.length_append, hcalled,
          List.length_cons, List.length_nil] at hlength
        omega
      · right
        exact hstop
    · refine hserved.answers n call hcall ?_
      rw [hcalled, List.length_append, List.length_singleton]
      exact hlt

/-- One event is handled and the callback ends the loop. -/
theorem Served.last {recv : Recv} {bufLen : ℕ} {mid : UdpState}
    (h : Handles E useMalloc recv bufLen st mid)
    (hstops : (cb.func mid.calls.length (mid.call bufLen) &&
      cb.go mid.calls.length) = false) :
    Served E cb useMalloc st (recv :: events) [recv] events
      (closeSock cb (mid.called bufLen)).1
      (closeSock cb (mid.called bufLen)).2 := by
  obtain ⟨hstop, hcalls, hclosed⟩ := closeSock_isStop cb (mid.called bufLen)
  have hcalled : (closeSock cb (mid.called bufLen)).2.calls =
      st.calls ++ [mid.call bufLen] := by
    rw [hcalls, ← h.calls]
    rfl
  refine ⟨rfl, fun hmode => h.stores hmode trivial, ?_, ?_, h.blocksOnce ?_,
    ?_, ?_, fun _ => rfl, ?_⟩
  · rw [hcalled]
    exact List.prefix_append _ _
  · rw [hcalled, List.map_append, List.map_cons, List.map_nil, h.seen]
    rfl
  · intro _
    simp [UdpState.blocks, hcalls, Reuses]
  · rcases hstop with hresult | hresult <;> simp [hresult, Leaves]
  · simp [hclosed, hstop]
  · intro n call hcall hle
    rw [hcalled] at hcall ⊢
    have hlt := (List.getElem?_eq_some_iff.mp hcall).1
    rw [List.length_append, List.length_singleton] at hlt ⊢
    obtain rfl : n = st.calls.length := by omega
    rw [List.getElem?_concat_length, Option.some_inj] at hcall
    rw [h.calls] at hstops
    rw [← hcall, hstops]
    simp [hstop]

theorem ServerInv.called {bufLen : ℕ} (h : ServerInv useMalloc st) :
    ServerInv useMalloc (st.called bufLen) where
  length_eq := h.length_eq
  tmp_none := h.tmp_none
  tmp_mem := by
    intro block hblock
    rw [blocks_called]
    exact List.mem_append_left _ (h.tmp_mem block hblock)
  bound := by
    intro a ha
    rw [blocks_called, List.mem_append] at ha
    rcases ha with ha | ha
    · exact h.bound a ha
    · cases htmp : st.tmp with
      | none => simp [htmp] at ha
      | some block =>
          simp only [htmp, Option.map_some, Option.toList_some,
            List.mem_singleton] at ha
          rw [ha]
          exact h.bound _ (h.tmp_mem block htmp)
  isOpen := h.isOpen

end Calls

/-- What a server that started has done when it ends. -/
structure Outcome (E : Env) (cb : Callbacks) (useMalloc : Bool)
    (requests : ℕ) (events handled rest : List Recv) (result : UdpEnd)
    (after : UdpState) : Prop where
  events_eq : events = handled ++ rest
  stores : useMalloc = true → Stores E requests handled
  seen : after.calls.map UdpCall.seen = handled.map Recv.seen
  leaves : Leaves E useMalloc requests handled rest result
  isOpen : after.sockOpen = true ↔ ¬ result.IsStop
  closes : result.IsStop →
    result = if cb.closeFails then .closeError else .stopped
  answers : ∀ n call, after.calls[n]? = some call →
    ((cb.func n call && cb.go n) = true ↔
      (n + 1 < after.calls.length ∨ ¬ result.IsStop))
  blocks : useMalloc = true → (after.blocks.Nodup ↔ ¬ Reuses handled)

end UdpServer
end Alib
