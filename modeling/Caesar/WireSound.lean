import Caesar.Wire
import Caesar.RelaySound

/-!
# What the reader passes on

A frame is read back from its bytes and from no others, so as long as no
time-out comes in the middle of a frame the reader passes on the frames that
were sent. A time-out in the middle drops the bytes taken so far, and the next
frame starts in the middle of the sent one.
-/

namespace Caesar

open Codec Delivery

/-! ## The bytes of a frame -/

def P2PFrame.bytes (frame : P2PFrame) : Bytes := writeSize frame.payload.length ++ frame.type.toByte :: frame.payload

theorem frameSerialize_ok {frame : P2PFrame} {data : Bytes} :
    frame.serializeBinary = .ok data ↔ frame.payload.length ≤ czrP2PMaxPayload ∧ data = frame.bytes := by
  unfold P2PFrame.serializeBinary
  rw [ite_error_ok, Except.ok.injEq, not_lt]
  exact and_congr_right fun _ => eq_comm

theorem ofByte_eq_some {byte : UInt8} {type : P2PMessageType} :
    P2PMessageType.ofByte byte = some type ↔ byte = type.toByte := by
  constructor
  · intro h
    have := List.find?_some h
    exact (of_decide_eq_true this).symm
  · rintro rfl
    cases type <;> rfl

theorem frameDeserialize_ok {data : Bytes} {frame : P2PFrame} :
    P2PFrame.deserializeBinary data = .ok frame ↔ frame.payload.length ≤ czrP2PMaxPayload ∧ data = frame.bytes := by
  unfold P2PFrame.deserializeBinary
  rw [bind_ok]
  constructor
  · rintro ⟨⟨size, rest⟩, hsize, h⟩
    obtain rfl := readU32_ok.mp hsize
    obtain ⟨hle, h⟩ := ite_error_ok.mp h
    cases rest with
    | nil => cases h
    | cons rawType payload =>
      simp only at h
      cases htype : P2PMessageType.ofByte rawType with
      | none =>
        rw [htype] at h
        cases h
      | some type =>
        rw [htype] at h
        obtain ⟨hlen, h⟩ := ite_error_ok.mp h
        cases h
        rw [not_not] at hlen
        refine ⟨by rw [hlen]; omega, ?_⟩
        rw [P2PFrame.bytes, ofByte_eq_some.mp htype, hlen, writeSize, UInt32.ofNat_toNat]
  · rintro ⟨hle, rfl⟩
    refine ⟨⟨UInt32.ofNat frame.payload.length, frame.type.toByte :: frame.payload⟩, readU32_ok.mpr rfl, ?_⟩
    have hsize : (UInt32.ofNat frame.payload.length).toNat = frame.payload.length := by
      apply UInt32.toNat_ofNat_of_lt'
      have : czrP2PMaxPayload < UInt32.size := by decide
      omega
    simp only [hsize, ofByte_eq_some.mpr rfl]
    rw [if_neg (by omega), if_neg (by simp)]
    rfl

theorem frameBytes_length (frame : P2PFrame) : frame.bytes.length = 5 + frame.payload.length := by
  simp [P2PFrame.bytes, writeSize, writeU32, leBytes_length]
  omega

theorem frameBytes_take (frame : P2PFrame) (h : frame.payload.length ≤ czrP2PMaxPayload) :
    leNat (frame.bytes.take 4) = frame.payload.length := by
  have h4 : (writeSize frame.payload.length).length = 4 := by simp [writeSize, writeU32, leBytes_length]
  rw [P2PFrame.bytes, List.take_left' h4, writeSize, writeU32]
  have hsize : (UInt32.ofNat frame.payload.length).toNat = frame.payload.length := by
    apply UInt32.toNat_ofNat_of_lt'
    have : czrP2PMaxPayload < UInt32.size := by decide
    omega
  rw [hsize]
  apply leNat_leBytes
  have : czrP2PMaxPayload < 256 ^ 4 := by decide
  omega

theorem frameBytes_inj {frame frame' : P2PFrame} {rest rest' : Bytes} (h : frame.payload.length ≤ czrP2PMaxPayload)
    (h' : frame'.payload.length ≤ czrP2PMaxPayload) (he : frame.bytes ++ rest = frame'.bytes ++ rest') :
    frame = frame' ∧ rest = rest' := by
  have h4 : ∀ (frame : P2PFrame) (rest : Bytes), (frame.bytes ++ rest).take 4 = frame.bytes.take 4 := by
    intro frame rest
    apply List.take_append_of_le_length
    rw [frameBytes_length]
    omega
  have hsize : frame.payload.length = frame'.payload.length := by
    rw [← frameBytes_take frame h, ← frameBytes_take frame' h', ← h4 frame rest, he, h4]
  obtain ⟨hbytes, hrest⟩ := List.append_inj he (by rw [frameBytes_length, frameBytes_length, hsize])
  refine ⟨?_, hrest⟩
  have hread := frameDeserialize_ok.mpr ⟨h, rfl⟩
  rw [hbytes, frameDeserialize_ok.mpr ⟨h', rfl⟩] at hread
  cases hread
  rfl

/-! ## One frame -/

/-- What a receipt has taken off the socket: a whole frame, or the bytes that a time-out dropped. -/
def Receipt.Consumes (socket : Socket) : Receipt → Prop
  | .frame got s => got.payload.length ≤ czrP2PMaxPayload ∧ socket.rest = got.bytes ++ s.rest
  | .timeout lost s => socket.rest = lost ++ s.rest
  | _ => True

theorem receiveFrame_consumes (socket : Socket) : (receiveFrame socket).Consumes socket := by
  unfold receiveFrame
  cases hhead : receiveAll 4 socket with
  | timeout lost s => exact (collect_timeout hhead).symm
  | failed e => trivial
  | waiting => trivial
  | all lengthBytes s =>
    obtain ⟨-, hfirst⟩ := collect_all hhead (Nat.zero_le _)
    rw [List.nil_append] at hfirst
    dsimp only
    by_cases hbig : leNat lengthBytes > czrP2PMaxPayload
    · rw [if_pos hbig]
      trivial
    · rw [if_neg hbig]
      cases hbody : receiveAll (5 + leNat lengthBytes - 4) s with
      | timeout lost s' =>
        have hsecond := collect_timeout hbody
        rw [List.nil_append] at hsecond
        show socket.rest = _
        rw [← hfirst, ← hsecond, List.append_assoc]
      | failed e => trivial
      | waiting => trivial
      | all body s' =>
        obtain ⟨-, hsecond⟩ := collect_all hbody (Nat.zero_le _)
        rw [List.nil_append] at hsecond
        dsimp only
        cases hread : P2PFrame.deserializeBinary (lengthBytes ++ body) with
        | error e => trivial
        | ok frame =>
          obtain ⟨hle, hbytes⟩ := frameDeserialize_ok.mp hread
          refine ⟨hle, ?_⟩
          rw [← hfirst, ← hsecond, ← List.append_assoc, hbytes]

theorem receiveFrame_frame {socket socket' : Socket} {frame : P2PFrame} (h : receiveFrame socket = .frame frame socket') :
    frame.payload.length ≤ czrP2PMaxPayload ∧ socket.rest = frame.bytes ++ socket'.rest := by
  have hconsumes := receiveFrame_consumes socket
  rwa [h] at hconsumes

theorem receiveFrame_timeout {socket socket' : Socket} {lost : Bytes} (h : receiveFrame socket = .timeout lost socket') :
    socket.rest = lost ++ socket'.rest := by
  have hconsumes := receiveFrame_consumes socket
  rwa [h] at hconsumes

/-! ## The reader loop -/

def stream (frames : List P2PFrame) : Bytes := frames.flatMap P2PFrame.bytes

section
variable {σ : Type} (handleFrame : P2PFrame → σ → Result Unit × σ)

theorem readerLoop_timeout (rounds : Nat) {socket socket' : Socket} {lost : Bytes} (state : σ)
    (h : receiveFrame socket = .timeout lost socket') : readerLoop handleFrame (rounds + 1) socket state =
      (.timeout lost socket' :: (readerLoop handleFrame rounds socket' state).1,
        (readerLoop handleFrame rounds socket' state).2) := by
  rw [readerLoop, h]

theorem readerLoop_frame (rounds : Nat) {socket socket' : Socket} {frame : P2PFrame} (state : σ)
    (h : receiveFrame socket = .frame frame socket') : (readerLoop handleFrame (rounds + 1) socket state).1 =
        .frame frame socket' :: (readerLoop handleFrame rounds socket' (handleFrame frame state).2).1 ∨
      (readerLoop handleFrame (rounds + 1) socket state).1 = [.frame frame socket'] := by
  rw [readerLoop, h]
  simp only
  cases (handleFrame frame state).1 with
  | ok u => exact .inl rfl
  | error e =>
    by_cases ht : e.mentionsTimeout = true
    · left
      simp only [ht, if_true]
    · right
      simp only [ht]
      rfl

theorem stream_front {frame : P2PFrame} {rest : Bytes} {frames : List P2PFrame}
    (hvalid : ∀ frame ∈ frames, frame.payload.length ≤ czrP2PMaxPayload) (h : frame.payload.length ≤ czrP2PMaxPayload)
    (hp : frame.bytes ++ rest <+: stream frames) : ∃ later, frames = frame :: later ∧ rest <+: stream later := by
  obtain ⟨tail, he⟩ := hp
  rw [List.append_assoc] at he
  cases frames with
  | nil =>
    have hlen := congrArg List.length he
    rw [List.length_append, frameBytes_length] at hlen
    simp only [stream, List.flatMap_nil, List.length_nil] at hlen
    omega
  | cons first later =>
    rw [stream, List.flatMap_cons] at he
    obtain ⟨rfl, hrest⟩ := frameBytes_inj h (hvalid first List.mem_cons_self) he
    exact ⟨later, rfl, tail, hrest⟩

theorem passedFrames_begins : ∀ (rounds : Nat) (socket : Socket) (state : σ) (frames : List P2PFrame),
    (∀ frame ∈ frames, frame.payload.length ≤ czrP2PMaxPayload) → socket.rest <+: stream frames →
    (∀ lost socket', .timeout lost socket' ∈ (readerLoop handleFrame rounds socket state).1 → lost = []) →
      passedFrames (readerLoop handleFrame rounds socket state).1 <+: frames := by
  intro rounds
  induction rounds with
  | zero =>
    intro socket state frames _ _ _
    exact List.nil_prefix
  | succ rounds ih =>
    intro socket state frames hvalid hp hcalm
    cases h : receiveFrame socket with
    | failed e =>
      rw [readerLoop, h]
      exact List.nil_prefix
    | waiting =>
      rw [readerLoop, h]
      exact List.nil_prefix
    | timeout lost socket' =>
      rw [readerLoop_timeout handleFrame rounds state h] at hcalm ⊢
      -- nothing was dropped, so the stream is where it was
      obtain rfl := hcalm lost socket' List.mem_cons_self
      rw [receiveFrame_timeout h] at hp
      exact ih socket' state frames hvalid hp fun lost s hmem => hcalm lost s (List.mem_cons_of_mem _ hmem)
    | frame frame socket' =>
      obtain ⟨hle, hrest⟩ := receiveFrame_frame h
      rw [hrest] at hp
      obtain ⟨later, rfl, hlater⟩ := stream_front hvalid hle hp
      rcases readerLoop_frame handleFrame rounds state h with hgo | hstop
      · rw [hgo] at hcalm ⊢
        refine (List.prefix_cons_inj frame).mpr (ih socket' _ later ?_ hlater ?_)
        · exact fun f hf => hvalid f (List.mem_cons_of_mem _ hf)
        · exact fun lost s hmem => hcalm lost s (List.mem_cons_of_mem _ hmem)
      · rw [hstop]
        exact (List.prefix_cons_inj frame).mpr List.nil_prefix

end

/-! ## Time-outs between frames -/

/-- What the socket will do, when `taken` bytes of the first frame have been taken and `left` are still to come: a time-out
comes only between two frames. The size of a frame and the rest of it are asked for one after the other. -/
def CalmEvents : List (Delivery.Event Error) → Nat → Nat → List P2PFrame → Prop
  | _, _, _, [] => True
  | [], _, _, _ => True
  | .timeout :: events, taken, left, frames => taken = 0 ∧ CalmEvents events 0 left frames
  | .interrupted :: events, taken, left, frames => CalmEvents events taken left frames
  | .failed _ :: _, _, _, _ => True
  | .piece n :: events, taken, left, frame :: frames =>
    let k := min (n + 1) (min ((if taken < 4 then 4 else frame.bytes.length) - taken) left)
    if taken + k = frame.bytes.length then CalmEvents events 0 (left - k) frames
    else CalmEvents events (taken + k) (left - k) (frame :: frames)

def Socket.Calm (socket : Socket) (frames : List P2PFrame) : Prop := CalmEvents socket.events 0 socket.rest.length frames

section
variable {frame : P2PFrame} {frames : List P2PFrame} {start size : Nat} {closed : Error}

def CalmAfter (frame : P2PFrame) (frames : List P2PFrame) (start size : Nat) : Collected Error UInt8 → Prop
  | .all _ source =>
    if start + size = frame.bytes.length then CalmEvents source.events 0 source.rest.length frames
    else CalmEvents source.events (start + size) source.rest.length (frame :: frames)
  | .timeout lost source => start + lost.length = 0 ∧ CalmEvents source.events 0 source.rest.length (frame :: frames)
  | _ => True

theorem collect_calm (hgoal : ∀ t, start ≤ t → t < start + size →
      (if t < 4 then 4 else frame.bytes.length) = start + size) (hwhole : start + size ≤ frame.bytes.length) :
    ∀ {events : List (Event Error)} {rest got : Bytes}, got.length < size →
      CalmEvents events (start + got.length) rest.length (frame :: frames) →
      CalmAfter frame frames start size (collect closed size events rest got) := by
  intro events
  induction events with
  | nil =>
    intro rest got hgot _
    rw [collect, if_neg (by omega)]
    trivial
  | cons event events ih =>
    intro rest got hgot hcalm
    unfold collect
    rw [if_neg (by omega)]
    cases event with
    | timeout => exact hcalm
    | interrupted => exact ih hgot hcalm
    | failed e => trivial
    | piece n =>
      dsimp only
      by_cases hr : rest.isEmpty
      · rw [if_pos hr]
        trivial
      · rw [if_neg hr]
        rw [CalmEvents, hgoal _ (by omega) (by omega)] at hcalm
        let got' := got ++ rest.take (min (n + 1) (size - got.length))
        have hgot' : got'.length = got.length +
            min (n + 1) (min (start + size - (start + got.length)) rest.length) := by
          simp only [got', List.length_append, List.length_take]
          omega
        have hrest : (rest.drop (min (n + 1) (size - got.length))).length =
            rest.length - min (n + 1) (min (start + size - (start + got.length)) rest.length) := by
          rw [List.length_drop]
          omega
        rw [← hrest, Nat.add_assoc start, ← hgot'] at hcalm
        show CalmAfter frame frames start size (collect closed size events _ got')
        by_cases hmore : got'.length < size
        · rw [if_neg (by omega)] at hcalm
          exact ih hmore hcalm
        · have hall : got'.length = size := by omega
          rw [collect_done _ _ (Nat.le_of_not_lt hmore)]
          rwa [hall] at hcalm

end

theorem receiveAll_size {socket middle : Socket} {frame : P2PFrame} {frames : List P2PFrame} {lengthBytes : Bytes}
    (h : receiveAll 4 socket = .all lengthBytes middle) (hle : frame.payload.length ≤ czrP2PMaxPayload)
    (hp : socket.rest <+: stream (frame :: frames)) : leNat lengthBytes = frame.payload.length := by
  obtain ⟨hfour, hsplit⟩ := collect_all h (Nat.zero_le _)
  obtain ⟨tail, htail⟩ := hp
  have hbytes : lengthBytes ++ (middle.rest ++ tail) = frame.bytes ++ stream frames := by
    rw [← List.append_assoc, hsplit, List.nil_append, htail]
    rfl
  have hlen := frameBytes_length frame
  have htake := congrArg (List.take 4) hbytes
  rw [List.take_left' hfour, List.take_append_of_le_length (by omega)] at htake
  rw [htake]
  exact frameBytes_take frame hle

theorem Socket.Calm.receiveFrame {socket : Socket} {frames : List P2PFrame} (h : socket.Calm frames)
    (hvalid : ∀ frame ∈ frames, frame.payload.length ≤ czrP2PMaxPayload) (hp : socket.rest <+: stream frames) :
    match receiveFrame socket with
    | .timeout lost socket' => lost = [] ∧ socket'.Calm frames
    | .frame frame socket' => ∀ later, frames = frame :: later → socket'.Calm later
    | _ => True := by
  cases frames with
  | nil =>
    -- nothing is there that could be dropped
    have hrest := List.prefix_nil.mp hp
    cases hr : Caesar.receiveFrame socket with
    | timeout lost socket' =>
      have hlost := receiveFrame_timeout hr
      rw [hrest] at hlost
      exact ⟨(List.append_eq_nil_iff.mp hlost.symm).1, by simp [Calm, CalmEvents]⟩
    | frame frame socket' => exact fun later hlater => by cases hlater
    | failed e => trivial
    | waiting => trivial
  | cons frame frames =>
    have hlen := frameBytes_length frame
    have hfirst : CalmAfter frame frames 0 4 (receiveAll 4 socket) :=
      collect_calm (fun t _ ht => by rw [if_pos (by omega)]) (by omega) (by simp) h
    unfold Caesar.receiveFrame
    cases hhead : receiveAll 4 socket with
    | timeout lost socket' =>
      rw [hhead] at hfirst
      have hzero : 0 + lost.length = 0 := hfirst.1
      exact ⟨List.length_eq_zero_iff.mp (by omega), hfirst.2⟩
    | failed e => trivial
    | waiting => trivial
    | all lengthBytes middle =>
      have hcalm : CalmEvents middle.events 4 middle.rest.length (frame :: frames) := by
        rwa [hhead, CalmAfter, if_neg (by omega)] at hfirst
      have hsize := receiveAll_size hhead (hvalid frame List.mem_cons_self) hp
      have hsecond : CalmAfter frame frames 4 (5 + leNat lengthBytes - 4)
          (receiveAll (5 + leNat lengthBytes - 4) middle) :=
        collect_calm (fun t ht _ => by rw [if_neg (by omega)]; omega) (by omega) (by simp; omega) hcalm
      dsimp only
      by_cases hbig : leNat lengthBytes > czrP2PMaxPayload
      · rw [if_pos hbig]
        trivial
      · rw [if_neg hbig]
        cases hbody : receiveAll (5 + leNat lengthBytes - 4) middle with
        | timeout lost socket' =>
          rw [hbody] at hsecond
          have hzero : 4 + lost.length = 0 := hsecond.1
          omega
        | failed e => trivial
        | waiting => trivial
        | all body socket' =>
          rw [hbody, CalmAfter, if_pos (by omega)] at hsecond
          dsimp only
          cases P2PFrame.deserializeBinary (lengthBytes ++ body) with
          | error e => trivial
          | ok received =>
            intro later hlater
            cases hlater
            exact hsecond

section
variable {σ : Type} (handleFrame : P2PFrame → σ → Result Unit × σ)

theorem Socket.Calm.readerLoop : ∀ (rounds : Nat) (socket : Socket) (state : σ) (frames : List P2PFrame),
    socket.Calm frames → (∀ frame ∈ frames, frame.payload.length ≤ czrP2PMaxPayload) → socket.rest <+: stream frames →
    ∀ lost socket', .timeout lost socket' ∈ (readerLoop handleFrame rounds socket state).1 → lost = [] := by
  intro rounds
  induction rounds with
  | zero =>
    intro socket state frames _ _ _ lost socket' hmem
    cases hmem
  | succ rounds ih =>
    intro socket state frames hcalm hvalid hp lost socket' hmem
    have hone := hcalm.receiveFrame hvalid hp
    cases h : Caesar.receiveFrame socket with
    | failed e =>
      rw [Caesar.readerLoop, h] at hmem
      simp at hmem
    | waiting =>
      rw [Caesar.readerLoop, h] at hmem
      simp at hmem
    | timeout dropped next =>
      rw [h] at hone
      rw [readerLoop_timeout handleFrame rounds state h, List.mem_cons] at hmem
      have hrest := receiveFrame_timeout h
      rw [hone.1, List.nil_append] at hrest
      rcases hmem with heq | hmem
      · cases heq
        exact hone.1
      · exact ih next state frames hone.2 hvalid (hrest ▸ hp) lost socket' hmem
    | frame frame next =>
      rw [h] at hone
      obtain ⟨hle, hrest⟩ := receiveFrame_frame h
      rw [hrest] at hp
      obtain ⟨later, rfl, hlater⟩ := stream_front hvalid hle hp
      rcases readerLoop_frame handleFrame rounds state h with hgo | hstop
      · rw [hgo, List.mem_cons] at hmem
        rcases hmem with heq | hmem
        · cases heq
        · exact ih next _ later (hone later rfl) (fun f hf => hvalid f (List.mem_cons_of_mem _ hf)) hlater lost socket' hmem
      · rw [hstop] at hmem
        simp at hmem

/-- The reader passes on the sent frames, however they arrive, while no time-out drops a byte; and none does if the socket
delivers time-outs between frames only. -/
theorem passed_frames_sent (rounds : Nat) (socket : Socket) (state : σ) (frames : List P2PFrame)
    (hvalid : ∀ frame ∈ frames, frame.payload.length ≤ czrP2PMaxPayload) (hp : socket.rest <+: stream frames) :
    ((∀ lost socket', .timeout lost socket' ∈ (readerLoop handleFrame rounds socket state).1 → lost = []) →
      passedFrames (readerLoop handleFrame rounds socket state).1 <+: frames) ∧
    (socket.Calm frames → passedFrames (readerLoop handleFrame rounds socket state).1 <+: frames) := by
  have hpassed := passedFrames_begins handleFrame rounds socket state frames hvalid hp
  exact ⟨hpassed, fun hcalm => hpassed (hcalm.readerLoop handleFrame rounds socket state frames hvalid hp)⟩

end

def toyPing : P2PFrame := ⟨.ping, [0, 0, 0, 7, 1, 2, 3, 4]⟩

def toyCalm : Socket := ⟨stream [toyPing], [.timeout, .piece 1, .interrupted, .piece 6, .piece 6, .piece 6]⟩

def toySplit : Socket := ⟨stream [toyPing], [.piece 3, .timeout, .piece 3, .piece 2]⟩

theorem passed_frames_sent_toy :
    passedFrames (readerLoop (fun _ n => (.ok (), n + 1)) 2 toyCalm 0).1 <+: [toyPing] ∧
      (readerLoop (fun _ n => (.ok (), n + 1)) 2 toyCalm 0).2 = 1 := by
  refine ⟨(passed_frames_sent _ 2 toyCalm 0 [toyPing] (by decide) List.prefix_rfl).2 ?_, by decide⟩
  simp [Socket.Calm, toyCalm, CalmEvents, stream, frameBytes_length, toyPing]

/-- The rest of the ping is read as a message with blocks. -/
theorem ping_read_as_blocks :
    passedFrames (readerLoop (fun _ n => (.ok (), n + 1)) 2 toySplit 0).1 = [⟨.blocks, [1, 2]⟩] ∧
      ¬ passedFrames (readerLoop (fun _ n => (.ok (), n + 1)) 2 toySplit 0).1 <+: [toyPing] := by
  have hpassed : passedFrames (readerLoop (fun _ n => (.ok (), n + 1)) 2 toySplit 0).1 = [⟨.blocks, [1, 2]⟩] := by
    decide
  refine ⟨hpassed, ?_⟩
  rw [hpassed]
  decide

/-! ## The reader of a node -/

def Node.frameHandler {K : Crypto} (choice : Node.Choice K) (id : UInt64) (frame : P2PFrame) (node : Node K) :
    Result Unit × Node K :=
  ((node.handleFrame choice id frame).result, (node.handleFrame choice id frame).node)

/-- While the handlers return, the reader does to the node what the frames it passes on do. -/
theorem readerLoop_node {K : Crypto} (choice : Node.Choice K) (id : UInt64) : ∀ (rounds : Nat) (socket : Socket)
    (node : Node K),
    (node.readFrames choice id (passedFrames (readerLoop (Node.frameHandler choice id) rounds socket node).1)).result =
      .ok () →
    (readerLoop (Node.frameHandler choice id) rounds socket node).2 =
      (node.readFrames choice id (passedFrames (readerLoop (Node.frameHandler choice id) rounds socket node).1)).node := by
  intro rounds
  induction rounds with
  | zero =>
    intro socket node _
    rfl
  | succ rounds ih =>
    intro socket node hok
    cases h : receiveFrame socket with
    | failed e =>
      rw [readerLoop, h]
      rfl
    | waiting =>
      rw [readerLoop, h]
      rfl
    | timeout lost socket' =>
      rw [readerLoop_timeout _ rounds node h] at hok ⊢
      exact ih socket' node hok
    | frame frame socket' =>
      cases hfirst : (node.handleFrame choice id frame).result with
      | ok u =>
        have hloop : readerLoop (Node.frameHandler choice id) (rounds + 1) socket node =
            (.frame frame socket' ::
                (readerLoop (Node.frameHandler choice id) rounds socket' (node.handleFrame choice id frame).node).1,
              (readerLoop (Node.frameHandler choice id) rounds socket' (node.handleFrame choice id frame).node).2) := by
          simp only [readerLoop, h, Node.frameHandler, hfirst]
        rw [hloop] at hok ⊢
        simp only [passedFrames, List.filterMap_cons, Receipt.frame?, Node.readFrames, hfirst] at hok ⊢
        exact ih socket' _ hok
      | error e =>
        -- the frames are not all handled
        rcases readerLoop_frame (Node.frameHandler choice id) rounds node h with hgo | hstop
        · rw [hgo] at hok
          simp [passedFrames, Receipt.frame?, Node.readFrames, hfirst] at hok
        · rw [hstop] at hok
          simp [passedFrames, Receipt.frame?, Node.readFrames, hfirst] at hok

end Caesar
