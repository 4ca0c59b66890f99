import Caesar.Handshake
import Caesar.MessagesSound

/-!
# The handshake ends, and both sides agree

Whatever the other side does, the handshake is over with the first turn after its
deadline, and its clock is then at most a millisecond later. It succeeds only on a hello
with the right version and network. Two honest sides
whose hellos arrive a millisecond before the deadline both succeed, or, on different
networks, both fail; and what follows the hello is left on the connection.
-/

namespace Caesar

open Codec Timed

/-! ## The poll -/

theorem pollTimeout_le {r : Nat} (_ : 0 < r) : pollTimeout r ≤ r + nanosPerMilli := by
  have hfloor := Nat.div_mul_le_self r nanosPerMilli
  unfold pollTimeout
  calc min (max (r / nanosPerMilli) 1) (2 ^ 31 - 1) * nanosPerMilli
      ≤ max (r / nanosPerMilli) 1 * nanosPerMilli := Nat.mul_le_mul_right _ (Nat.min_le_left ..)
    _ ≤ (r / nanosPerMilli + 1) * nanosPerMilli :=
      Nat.mul_le_mul_right _ (max_le (Nat.le_succ _) (Nat.le_add_left 1 _))
    _ ≤ r + nanosPerMilli := by rw [Nat.succ_mul]; omega

theorem le_pollTimeout {r : Nat} (h : r ≤ handshakeTimeout) : r ≤ pollTimeout r + (nanosPerMilli - 1) := by
  unfold handshakeTimeout at h
  unfold pollTimeout nanosPerMilli
  have := Nat.div_add_mod r 1000000
  have := Nat.mod_lt r (show 0 < 1000000 by decide)
  rw [Nat.min_eq_left (by omega)]
  omega

/-! ## One frame -/

def Deadlined.now {α : Type} : Deadlined α → Nat
  | .ok _ now _ _ => now
  | .ended e => e.now
  | .waiting now => now

def Deadlined.isOver {α : Type} : Deadlined α → Bool
  | .waiting _ => false
  | _ => true

theorem now_ofResult {α : Type} (result : Result α) (now : Nat) (socket : TimedSocket) (turns : List SocketTurn) :
    (Deadlined.ofResult result now socket turns).now = now := by
  cases result <;> rfl

theorem isOver_ofResult {α : Type} (result : Result α) (now : Nat) (socket : TimedSocket) (turns : List SocketTurn) :
    (Deadlined.ofResult result now socket turns).isOver = true := by
  cases result <;> rfl

section
variable {deadline now now' : Nat} {socket socket' : TimedSocket} {turns turns' : List SocketTurn} {frame : P2PFrame}

structure Received (socket : TimedSocket) (data : Bytes) (now : Nat) (socket' : TimedSocket) : Prop where
  closed : socket'.closed = socket.closed
  split : ∃ taken, socket.arrivals = taken ++ socket'.arrivals ∧ taken.map Prod.snd = data ∧ ∀ a ∈ taken, a.1 ≤ now

theorem receiveAllUntil_all {size : Nat} {s : State UInt8}
    (h : receiveAllUntil deadline size turns now socket = .all s turns') :
    now ≤ s.now ∧ s.got.length = size ∧ Received socket s.got s.now s.source := by
  obtain ⟨taken, htook, hlen⟩ := collect_all h (Nat.zero_le _)
  refine ⟨htook.later, hlen, htook.closed, taken, htook.arrivals, ?_, htook.there⟩
  rw [htook.got]
  rfl

theorem Received.trans {data data' : Bytes} {mid : TimedSocket} (h : Received socket data now mid)
    (h' : Received mid data' now' socket') (hle : now ≤ now') : Received socket (data ++ data') now' socket' := by
  obtain ⟨hc, taken, hsplit, hdata, hthere⟩ := h
  obtain ⟨hc', taken', hsplit', hdata', hthere'⟩ := h'
  refine ⟨hc'.trans hc, taken ++ taken', ?_, ?_, ?_⟩
  · rw [hsplit, hsplit', List.append_assoc]
  · rw [List.map_append, hdata, hdata']
  · intro a ha
    rcases List.mem_append.mp ha with ha | ha
    · exact Nat.le_trans (hthere a ha) hle
    · exact hthere' a ha

theorem receiveFrame_received (h : receiveFrameWithDeadline deadline turns now socket = .ok frame now' socket' turns') :
    frame.payload.length ≤ czrP2PMaxPayload ∧ Received socket frame.bytes now' socket' := by
  unfold receiveFrameWithDeadline at h
  split at h
  · cases h
  · cases h
  · rename_i size turns₁ hsize
    obtain ⟨-, -, hfirst⟩ := receiveAllUntil_all hsize
    dsimp only at h
    split at h
    · cases h
    · split at h
      · cases h
      · cases h
      · rename_i body turns₂ hbody
        obtain ⟨hlater, -, hsecond⟩ := receiveAllUntil_all hbody
        cases hread : P2PFrame.deserializeBinary (size.got ++ body.got) with
        | error e =>
          rw [hread] at h
          cases h
        | ok read =>
          rw [hread] at h
          cases h
          obtain ⟨hle, hbytes⟩ := frameDeserialize_ok.mp hread
          exact ⟨hle, hbytes ▸ hfirst.trans hsecond hlater⟩

theorem receiveAllUntil_now (deadline size : Nat) (turns : List SocketTurn) (now : Nat) (socket : TimedSocket) :
    (receiveAllUntil deadline size turns now socket).now ≤ max now (deadline + nanosPerMilli) :=
  collect_now (fun _ hr => pollTimeout_le hr) turns _

theorem receiveFrame_now (deadline : Nat) (turns : List SocketTurn) (now : Nat) (socket : TimedSocket) :
    (receiveFrameWithDeadline deadline turns now socket).now ≤ max now (deadline + nanosPerMilli) := by
  have hfirst := receiveAllUntil_now deadline 4 turns now socket
  unfold receiveFrameWithDeadline
  split
  · rename_i e he
    rwa [he] at hfirst
  · rename_i s hs
    rwa [hs] at hfirst
  · rename_i size turns₁ hsize
    rw [hsize] at hfirst
    have hfirst : size.now ≤ max now (deadline + nanosPerMilli) := hfirst
    have hsecond := receiveAllUntil_now deadline (5 + leNat size.got - 4) turns₁ size.now size.source
    have hle : max size.now (deadline + nanosPerMilli) ≤ max now (deadline + nanosPerMilli) := by omega
    dsimp only
    split
    · exact hfirst
    · split
      · rename_i e he
        rw [he] at hsecond
        exact Nat.le_trans hsecond hle
      · rename_i s hs
        rw [hs] at hsecond
        exact Nat.le_trans hsecond hle
      · rename_i body turns₂ hbody
        rw [hbody] at hsecond
        rw [now_ofResult]
        exact Nat.le_trans hsecond hle

/-- A call that is still waiting after the deadline is over at its next turn, wherever in the frame it is. -/
theorem receiveFrame_late (h : receiveFrameWithDeadline deadline turns now socket = .waiting now') (hlate : deadline ≤ now')
    (turn : SocketTurn) : receiveFrameWithDeadline deadline (turns ++ [turn]) now socket = .ended (.timeout now') := by
  unfold receiveFrameWithDeadline at h
  split at h
  · cases h
  · rename_i s hs
    cases h
    have hend : receiveAllUntil deadline 4 (turns ++ [turn]) now socket = _ := collect_late hs hlate turn
    rw [receiveFrameWithDeadline, hend]
  · rename_i size turns₁ hsize
    have hsame : receiveAllUntil deadline 4 (turns ++ [turn]) now socket = _ := collect_spare [turn] hsize
    rw [receiveFrameWithDeadline, hsame]
    dsimp only at h ⊢
    split at h
    · cases h
    · rename_i hsmall
      rw [if_neg hsmall]
      split at h
      · cases h
      · rename_i s hs
        cases h
        have hend : receiveAllUntil deadline (5 + leNat size.got - 4) (turns₁ ++ [turn]) size.now size.source = _ :=
          collect_late hs hlate turn
        rw [hend]
      · rename_i body turns₂ hbody
        have hover := isOver_ofResult (P2PFrame.deserializeBinary (size.got ++ body.got)) body.now body.source turns₂
        rw [h] at hover
        cases hover

/-- The next `wanted` bytes arrive by `time`, and the calls on the socket give something often enough. -/
structure Prompt (socket : TimedSocket) (turns : List SocketTurn) (wanted time : Nat) : Prop where
  inTime : socket.InTime wanted time
  sound : ∀ turn ∈ turns, turn.isFailed = false
  enough : wanted ≤ turns.countP Turn.isTake

theorem Prompt.receiveAllUntil {wanted size time : Nat} (h : Prompt socket turns wanted time) (hsize : size ≤ wanted)
    (hnow : now ≤ time) (htime : time + nanosPerMilli ≤ deadline) (hbound : deadline ≤ now + handshakeTimeout) :
    ∃ s rest, receiveAllUntil deadline size turns now socket = .all s rest ∧ s.now ≤ time ∧
      Prompt s.source rest (wanted - size) time := by
  have hmilli : 0 < nanosPerMilli := by decide
  have hin : socket.InTime size time :=
    ⟨Nat.le_trans hsize h.inTime.1, fun a ha => h.inTime.2 a (List.take_subset_take_left _ hsize ha)⟩
  have hcollect : ∃ s rest, Caesar.receiveAllUntil deadline size turns now socket = .all s rest ∧ s.now ≤ time ∧
      rest <:+ turns ∧ turns.countP Turn.isTake ≤ rest.countP Turn.isTake + size :=
    collect_inTime (s := ⟨now, socket, []⟩) (fun r hr => le_pollTimeout hr)
      (show time + (nanosPerMilli - 1) < deadline by omega) hbound (Nat.zero_le _) hin hnow h.sound
      (Nat.le_trans hsize h.enough)
  obtain ⟨s, rest, hall, hlast, hsuffix, hused⟩ := hcollect
  obtain ⟨taken, htook, hlen⟩ := collect_all hall (Nat.zero_le _)
  have hcount : taken.length = size := by
    rw [← hlen, htook.got]
    simp
  refine ⟨s, rest, hall, hlast, ⟨?_, ?_⟩, fun turn ht => h.sound turn (hsuffix.subset ht), ?_⟩
  · have := h.inTime.1
    rw [htook.arrivals, List.length_append] at this
    omega
  · intro a ha
    refine h.inTime.2 a ?_
    rw [htook.arrivals, List.take_append]
    refine List.mem_append_right _ ?_
    rwa [hcount]
  · have := h.enough
    omega

theorem Received.eq_take {data rest : Bytes} (h : Received socket data now socket')
    (hs : socket.arrivals.map Prod.snd = rest) : data = rest.take data.length ∧
      socket'.arrivals.map Prod.snd = rest.drop data.length := by
  obtain ⟨-, taken, hsplit, hdata, -⟩ := h
  rw [hsplit, List.map_append, hdata] at hs
  rw [← hs]
  simp

theorem receiveFrame_prompt {later : Bytes} {time : Nat} (hframe : frame.payload.length ≤ czrP2PMaxPayload)
    (hs : socket.arrivals.map Prod.snd = frame.bytes ++ later) (h : Prompt socket turns frame.bytes.length time)
    (hnow : now ≤ time) (htime : time + nanosPerMilli ≤ deadline) (hbound : deadline ≤ now + handshakeTimeout) :
    ∃ now' socket' turns', receiveFrameWithDeadline deadline turns now socket = .ok frame now' socket' turns' ∧
      socket'.arrivals.map Prod.snd = later := by
  have hlen := frameBytes_length frame
  obtain ⟨size, turns₁, hsize, hnow₁, hprompt⟩ := h.receiveAllUntil (show 4 ≤ _ by omega) hnow htime hbound
  obtain ⟨hlater, hgot, hfirst⟩ := receiveAllUntil_all hsize
  obtain ⟨hdata, hrest⟩ := hfirst.eq_take hs
  rw [hgot] at hdata hrest
  rw [List.take_append_of_le_length (by omega)] at hdata
  rw [List.drop_append_of_le_length (by omega)] at hrest
  have hcount : leNat size.got = frame.payload.length := by
    rw [hdata]
    exact frameBytes_take frame hframe
  obtain ⟨body, turns₂, hbody, hnow₂, -⟩ := hprompt.receiveAllUntil
    (show 5 + leNat size.got - 4 ≤ _ by omega) hnow₁ htime (Nat.le_trans hbound (Nat.add_le_add_right hlater _))
  obtain ⟨-, hgot', hsecond⟩ := receiveAllUntil_all hbody
  obtain ⟨hdata', hrest'⟩ := hsecond.eq_take hrest
  have hbody4 : body.got.length = (frame.bytes.drop 4).length := by
    rw [List.length_drop]
    omega
  rw [hbody4, List.take_left] at hdata'
  rw [hbody4, List.drop_left] at hrest'
  refine ⟨body.now, body.source, turns₂, ?_, hrest'⟩
  unfold receiveFrameWithDeadline
  rw [hsize]
  dsimp only
  rw [if_neg (by omega), hbody]
  dsimp only
  rw [hdata, hdata', List.take_append_drop, frameDeserialize_ok.mpr ⟨hframe, rfl⟩]
  rfl

end

/-! ## The handshake -/

def helloFrame (hello : P2PHello) : P2PFrame := ⟨.hello, hello.bytes⟩

theorem helloFrame_small {hello : P2PHello} (h : hello.userAgent.length ≤ czrP2PMaxUserAgent) :
    (helloFrame hello).payload.length ≤ czrP2PMaxPayload := by
  have hmax : 28 + czrP2PMaxUserAgent ≤ czrP2PMaxPayload := by decide
  have hlen : (helloFrame hello).payload.length = 28 + hello.userAgent.length := by
    simp [helloFrame, P2PHello.bytes, stringBytes, writeSize, writeU32, writeU64, leBytes_length]
    omega
  omega

theorem makeHelloFrame_bytes {hello : P2PHello} (h : hello.userAgent.length ≤ czrP2PMaxUserAgent) :
    (makeHelloFrame hello).bind P2PFrame.serializeBinary = .ok (helloFrame hello).bytes := by
  have hserialize := (helloSerialize_ok hello hello.bytes).mpr ⟨h, rfl⟩
  have hmake : makeHelloFrame hello = .ok (helloFrame hello) := by
    rw [makeHelloFrame, hserialize]
    rfl
  rw [hmake]
  exact frameSerialize_ok.mpr ⟨helloFrame_small h, rfl⟩

theorem parseHelloFrame_ok {frame : P2PFrame} {remote : P2PHello} : parseHelloFrame frame = .ok remote ↔
    frame = helloFrame remote ∧ remote.userAgent.length ≤ czrP2PMaxUserAgent := by
  unfold parseHelloFrame P2PHello.deserializeBinary
  rw [ite_error_ok, not_not, readAll_ok, readHello_exact, List.append_nil]
  constructor
  · rintro ⟨htype, hlen, hpayload⟩
    exact ⟨by rw [helloFrame, ← hpayload, ← htype], hlen⟩
  · rintro ⟨rfl, hlen⟩
    exact ⟨rfl, hlen, rfl⟩

theorem checkHello_ok {expected : UInt32} {frame : P2PFrame} (h : checkHello expected frame = .ok ()) :
    ∃ remote : P2PHello, frame = helloFrame remote ∧ remote.protocolVersion = czrP2PProtocolVersion ∧
      remote.networkId = expected := by
  obtain ⟨remote, hread, hvalid⟩ := bind_ok.mp h
  obtain ⟨hvalid, -⟩ := ite_not_fail.mp hvalid
  simp only [validateHello, Bool.and_eq_true, decide_eq_true_eq] at hvalid
  exact ⟨remote, (parseHelloFrame_ok.mp hread).1, hvalid⟩

theorem checkHello_hello {remote : P2PHello} (expected : UInt32) (hlen : remote.userAgent.length ≤ czrP2PMaxUserAgent)
    (hversion : remote.protocolVersion = czrP2PProtocolVersion) : checkHello expected (helloFrame remote) =
      if remote.networkId = expected then .ok () else fail "P2P hello validation failed" := by
  unfold checkHello
  rw [parseHelloFrame_ok.mpr ⟨rfl, hlen⟩]
  by_cases hnetwork : remote.networkId = expected
  · simp [validateHello, hversion, hnetwork, bind, Except.bind, pure, Except.pure]
  · simp [validateHello, hnetwork, bind, Except.bind]

/-- Whatever the other side sends, and when: the clock of the handshake does not go beyond a millisecond after its deadline,
and at the first turn after the deadline the handshake is over. It succeeds only on a hello of the right version and network,
which had arrived by then; what follows the hello stays. -/
theorem handshake_any_peer (hello : P2PHello) (expected : UInt32) (turns : List SocketTurn) (now : Nat)
    (socket : TimedSocket) :
    (performHelloHandshake hello expected turns now socket).2.now ≤ now + handshakeTimeout + nanosPerMilli ∧
    (now + handshakeTimeout ≤ (performHelloHandshake hello expected turns now socket).2.now →
      (performHelloHandshake hello expected turns now socket).2.isOver = true ∨
        ∀ turn, (performHelloHandshake hello expected (turns ++ [turn]) now socket).2.isOver = true) ∧
    ∀ now' socket' turns', (performHelloHandshake hello expected turns now socket).2 = .ok () now' socket' turns' →
      ∃ remote : P2PHello, Received socket (helloFrame remote).bytes now' socket' ∧
        remote.protocolVersion = czrP2PProtocolVersion ∧ remote.networkId = expected := by
  unfold performHelloHandshake
  dsimp only
  cases (makeHelloFrame hello).bind P2PFrame.serializeBinary with
  | error e =>
    refine ⟨?_, fun _ => Or.inl rfl, fun now' socket' turns' h => ?_⟩
    · show now ≤ _
      omega
    · cases h
  | ok sent =>
    dsimp only
    have htime := receiveFrame_now (now + handshakeTimeout) turns now socket
    rw [Nat.max_eq_right (by omega)] at htime
    cases hreceive : receiveFrameWithDeadline (now + handshakeTimeout) turns now socket with
    | ended e =>
      rw [hreceive] at htime
      exact ⟨htime, fun _ => Or.inl rfl, fun now' socket' turns' h => by cases h⟩
    | waiting time =>
      rw [hreceive] at htime
      refine ⟨htime, fun hlate => Or.inr fun turn => ?_, fun now' socket' turns' h => by cases h⟩
      rw [receiveFrame_late hreceive hlate turn]
      rfl
    | ok frame now₁ socket₁ turns₁ =>
      rw [hreceive] at htime
      obtain ⟨-, hreceived⟩ := receiveFrame_received hreceive
      dsimp only
      rw [now_ofResult]
      refine ⟨htime, fun _ => Or.inl (isOver_ofResult ..), fun now' socket' turns' h => ?_⟩
      cases hcheck : checkHello expected frame with
      | error e =>
        rw [hcheck] at h
        cases h
      | ok u =>
        rw [hcheck] at h
        cases h
        obtain ⟨remote, rfl, hversion, hnetwork⟩ := checkHello_ok hcheck
        exact ⟨remote, hreceived, hversion, hnetwork⟩

structure GreetingSide where
  hello : P2PHello
  now : Nat
  socket : TimedSocket
  turns : List SocketTurn

def GreetingSide.greet (side : GreetingSide) : Bytes × Deadlined Unit :=
  performHelloHandshake side.hello side.hello.networkId side.turns side.now side.socket

/-- The side is a server of this version, and what it is sent begins with the hello of the other, a millisecond before the
deadline. -/
structure GreetingSide.Hears (side other : GreetingSide) (later : Bytes) : Prop where
  version : side.hello.protocolVersion = czrP2PProtocolVersion
  agent : side.hello.userAgent.length ≤ czrP2PMaxUserAgent
  stream : side.socket.arrivals.map Prod.snd = other.greet.1 ++ later
  prompt : Prompt side.socket side.turns other.greet.1.length (side.now + handshakeTimeout - nanosPerMilli)

theorem GreetingSide.Hears.outcome {side other : GreetingSide} {later later' : Bytes} (h : side.Hears other later)
    (h' : other.Hears side later') :
    if other.hello.networkId = side.hello.networkId then
      ∃ now socket turns, side.greet.2 = .ok () now socket turns ∧ socket.arrivals.map Prod.snd = later
    else ∃ now, side.greet.2 = .ended (.failed now (.runtimeError "P2P hello validation failed")) := by
  have hmilli : nanosPerMilli ≤ handshakeTimeout := by decide
  have hsent : other.greet.1 = (helloFrame other.hello).bytes := by
    rw [greet, performHelloHandshake, makeHelloFrame_bytes h'.agent]
  have hstream := h.stream
  have hprompt := h.prompt
  rw [hsent] at hstream hprompt
  obtain ⟨now, socket, turns, hreceive, hrest⟩ := receiveFrame_prompt (helloFrame_small h'.agent) hstream hprompt
    (show side.now ≤ _ by omega) (show _ ≤ side.now + handshakeTimeout by omega) (Nat.le_refl _)
  have hgreet : side.greet.2 = .ofResult (checkHello side.hello.networkId (helloFrame other.hello)) now socket turns := by
    rw [greet, performHelloHandshake, makeHelloFrame_bytes h.agent]
    dsimp only
    rw [hreceive]
  rw [hgreet, checkHello_hello _ h'.agent h'.version]
  split
  · exact ⟨now, socket, turns, rfl, hrest⟩
  · exact ⟨now, rfl⟩

/-- Two servers that hear each other in time both go on with the connection, each with what follows the other's hello, or,
on different networks, both give it up. -/
theorem handshakes_agree {a b : GreetingSide} {fromA fromB : Bytes} (ha : a.Hears b fromB) (hb : b.Hears a fromA) :
    if a.hello.networkId = b.hello.networkId then
      (∃ now socket turns, a.greet.2 = .ok () now socket turns ∧ socket.arrivals.map Prod.snd = fromB) ∧
        ∃ now socket turns, b.greet.2 = .ok () now socket turns ∧ socket.arrivals.map Prod.snd = fromA
    else (∃ now, a.greet.2 = .ended (.failed now (.runtimeError "P2P hello validation failed"))) ∧
      ∃ now, b.greet.2 = .ended (.failed now (.runtimeError "P2P hello validation failed")) := by
  have hfirst := ha.outcome hb
  have hsecond := hb.outcome ha
  split
  · rename_i hnetwork
    rw [if_pos hnetwork.symm] at hfirst
    rw [if_pos hnetwork] at hsecond
    exact ⟨hfirst, hsecond⟩
  · rename_i hnetwork
    rw [if_neg (Ne.symm hnetwork)] at hfirst
    rw [if_neg hnetwork] at hsecond
    exact ⟨hfirst, hsecond⟩

/-! ## Two servers -/

def toyGreeting : TimedSocket := ⟨((helloFrame {}).bytes ++ toyPing.bytes).zipIdx.map fun p => (p.2, p.1), none⟩

def toyGreeter : GreetingSide := ⟨{}, 0, toyGreeting, List.replicate 50 (.take 2)⟩

theorem handshakes_agree_toy :
    ∃ now socket turns, toyGreeter.greet.2 = .ok () now socket turns ∧ socket.arrivals.map Prod.snd = toyPing.bytes := by
  have hears : toyGreeter.Hears toyGreeter toyPing.bytes := by
    refine ⟨rfl, by decide +kernel, by decide +kernel, ⟨by decide +kernel, by decide +kernel⟩, by decide, by decide +kernel⟩
  exact (handshakes_agree hears hears).1

end Caesar
