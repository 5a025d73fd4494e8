import Minima.Network.NIOClient

/-! # A link between two clients

One client queues messages and writes, in any order, and the socket takes as many bytes as it likes. The
other one reads them in any chunks. The writer puts the frames of its messages on the wire, except those
of empty messages, which it drops; so all messages arrive, in order and once, when none of them is empty.

* **`NIOClient.pending_fillLoop`** — filling the buffer keeps the bytes that are still to be sent.
* **`Link.Reached.holds`** — what was received, what is on the wire and what is still to be sent are the
  frames of the messages.
* **`Link.delivers_iff`** — all messages arrive exactly if none is empty. -/

namespace Minima

namespace NIOClient

/-! ## The writer -/

/-- **A client as it writes**: its packet is not at its end, and nothing of it is too big. -/
structure Writes (c : NIOClient) : Prop where
  connected : c.Connected
  buffer : c.outBuf.length ≤ maxNIOBuffers
  messages : ∀ m ∈ c.messages, m.length ≤ maxMessage
  packet : c.writeData ≠ [] → c.writeLimit = c.writeData.length ∧ c.writePosition < c.writeLimit ∧
    (c.writeStart = false → c.writePosition = 0)

/-- What is still to be sent of the packet. -/
def packetBytes (c : NIOClient) : List Byte :=
  if c.writeData = [] then []
  else if c.writeStart then c.writeData.drop c.writePosition
  else format.frame c.writeData

/-- **What is still to be sent**: the buffer, the packet, and the messages that are not empty. -/
def pending (c : NIOClient) : List Byte :=
  c.outBuf ++ c.packetBytes ++ format.frames (c.messages.filter (! ·.isEmpty))

/-- What a part of the filling keeps. -/
structure Fills (c c' : NIOClient) : Prop where
  writes : c'.Writes
  pending : c'.pending = c.pending
  grows : c.outBuf <+: c'.outBuf
  messages : c'.messages.length ≤ c.messages.length

theorem Fills.refl {c : NIOClient} (h : c.Writes) : Fills c c := ⟨h, rfl, List.prefix_refl _, le_rfl⟩

theorem Fills.trans {c c' c'' : NIOClient} (h : Fills c c') (h' : Fills c' c'') : Fills c c'' :=
  ⟨h'.writes, h'.pending.trans h.pending, h.grows.trans h'.grows, h'.messages.trans h.messages⟩

/-- Why the filling ends: there is something to send, a message was dropped, or there is no message. -/
def Ends (c c' : NIOClient) : Prop :=
  c'.outBuf ≠ [] ∨ c'.messages.length < c.messages.length ∨ c'.writeData = [] ∧ c'.messages = []

section

variable {c c' : NIOClient}

/-- The next packet. -/
theorem nextPacket_fills (h : c.Writes) (hok : c.nextPacket = .ok c') : Fills c c' ∧ c'.writeData ≠ [] := by
  unfold nextPacket at hok
  split at hok
  · next hdata =>
    cases hok
    exact ⟨.refl h, by simp [hdata]⟩
  · cases hok
  · next next messages hdata hmessages =>
    split_ifs at hok with hnil hlong
    cases hok
    refine ⟨⟨⟨h.connected, h.buffer, fun m hm => h.messages m (by rw [hmessages]; exact .tail _ hm),
      fun _ => ⟨rfl, List.length_pos_iff.mpr hnil, fun _ => rfl⟩⟩, ?_, List.prefix_refl _, ?_⟩, hnil⟩
    · simp [pending, packetBytes, hdata, hmessages, hnil]
    · simp [hmessages]

/-- The end of the queue, or a message that is dropped. -/
theorem nextPacket_ends (h : c.Writes) (herror : c.nextPacket = .error c') : Fills c c' ∧ Ends c c' := by
  unfold nextPacket at herror
  split at herror
  · cases herror
  · next hdata hmessages =>
    cases herror
    exact ⟨.refl h, .inr (.inr ⟨hdata, hmessages⟩)⟩
  · next next messages hdata hmessages =>
    have hall : ∀ m ∈ messages, m.length ≤ maxMessage := fun m hm =>
      h.messages m (by rw [hmessages]; exact .tail _ hm)
    split_ifs at herror with hnil hlong
    · cases herror
      refine ⟨⟨⟨h.connected, h.buffer, hall, h.packet⟩, ?_, List.prefix_refl _, ?_⟩, .inr (.inl ?_)⟩
      · simp [pending, packetBytes, hmessages, hnil]
      · simp [hmessages]
      · simp [hmessages]
    · exact absurd (h.messages next (by rw [hmessages]; exact .head _)) (not_le.mpr hlong)

/-- The size of the packet. -/
theorem writeSize_fills (h : c.Writes) (hne : c.writeData ≠ []) (hok : c.writeSize = .ok c') :
    Fills c c' ∧ c'.writeData ≠ [] ∧ c'.writeStart = true := by
  obtain ⟨hlimit, hposition, hstart⟩ := h.packet hne
  unfold writeSize at hok
  split_ifs at hok with hstarted hspace
  · cases hok
    exact ⟨.refl h, hne, hstarted⟩
  · cases hok
    have hzero := hstart (Bool.not_eq_true _ ▸ hstarted)
    refine ⟨⟨⟨h.connected, ?_, h.messages, fun _ => ⟨hlimit, hposition, by simp⟩⟩, ?_,
      List.prefix_append _ _, le_rfl⟩, hne, rfl⟩
    · rw [List.length_append, MiniData.length_writeInt32BE]
      omega
    · simp only [pending, packetBytes, if_neg hne, if_true, if_neg hstarted, hzero, List.drop_zero, hlimit,
        FrameFormat.frame, List.append_assoc]
      rfl

theorem writeSize_ends (herror : c.writeSize = .error c') : c' = c ∧ c.outBuf ≠ [] := by
  unfold writeSize at herror
  split_ifs at herror with hstarted hspace
  cases herror
  refine ⟨rfl, ?_⟩
  rintro hnil
  rw [hnil] at hspace
  exact hspace (by decide)

/-- The next bytes of the packet. -/
theorem writeBody_fills (h : c.Writes) (hne : c.writeData ≠ []) (hstart : c.writeStart = true) :
    Fills c c.writeBody ∧ c.writeBody.outBuf ≠ [] := by
  obtain ⟨hlimit, hposition, -⟩ := h.packet hne
  have hbuffer := h.buffer
  set tocopy := min (c.writeLimit - c.writePosition) (maxNIOBuffers - c.outBuf.length) with htocopy
  have hcopied : ((c.writeData.drop c.writePosition).take tocopy).length = tocopy := by
    rw [List.length_take, List.length_drop]
    omega
  have hsplit : c.writeData.drop c.writePosition =
      (c.writeData.drop c.writePosition).take tocopy ++ c.writeData.drop (c.writePosition + tocopy) := by
    rw [← List.drop_drop, List.take_append_drop]
  have hout : c.outBuf ++ (c.writeData.drop c.writePosition).take tocopy ≠ [] := by
    intro hnil
    obtain ⟨hempty, hcopy⟩ := List.append_eq_nil_iff.mp hnil
    rw [hcopy] at hcopied
    rw [hempty, List.length_nil] at htocopy
    have hmax : 0 < maxNIOBuffers := by decide
    simp only [List.length_nil] at hcopied
    omega
  have hbuffer' : (c.outBuf ++ (c.writeData.drop c.writePosition).take tocopy).length ≤ maxNIOBuffers := by
    rw [List.length_append, hcopied]
    omega
  unfold writeBody
  rw [if_neg (by omega)]
  simp only [← htocopy]
  split_ifs with hend
  · -- the packet is complete
    refine ⟨⟨⟨h.connected, hbuffer', h.messages, fun hne' => absurd rfl hne'⟩, ?_, List.prefix_append _ _,
      le_rfl⟩, hout⟩
    have hall : c.writeData.drop (c.writePosition + tocopy) = [] := by
      rw [hend, hlimit, List.drop_length]
    rw [hall, List.append_nil] at hsplit
    simp only [pending, packetBytes, if_true, if_neg hne, hstart, ← hsplit, List.append_nil]
  · refine ⟨⟨⟨h.connected, hbuffer', h.messages, fun _ => ⟨hlimit, ?_, ?_⟩⟩, ?_, List.prefix_append _ _,
      le_rfl⟩, hout⟩
    · show c.writePosition + tocopy < c.writeLimit
      omega
    · intro hstart'
      rw [hstart] at hstart'
      cases hstart'
    · simp only [pending, packetBytes, if_neg hne, hstart, if_true]
      rw [List.append_assoc c.outBuf, ← hsplit]

/-- One turn: there is something to send, or it was the last one. -/
theorem fillTurn_fills (h : c.Writes) :
    (∀ c', c.fillTurn = .ok c' → Fills c c' ∧ c'.outBuf ≠ []) ∧
      ∀ c', c.fillTurn = .error c' → Fills c c' ∧ Ends c c' := by
  unfold fillTurn
  split_ifs with hspace
  · cases hpacket : c.nextPacket with
    | error e =>
      refine ⟨fun c' hok => (by cases hok), fun c' herror => ?_⟩
      cases herror
      exact nextPacket_ends h hpacket
    | ok packet =>
      obtain ⟨hfills, hne⟩ := nextPacket_fills h hpacket
      cases hsized : packet.writeSize with
      | error e =>
        refine ⟨fun c' hok => by simp [bind, Except.bind, hsized] at hok, fun c' herror => ?_⟩
        simp only [bind, Except.bind, hsized, Except.error.injEq] at herror
        subst herror
        obtain ⟨rfl, hout⟩ := writeSize_ends hsized
        exact ⟨hfills, .inl hout⟩
      | ok sized =>
        obtain ⟨hfills', hne', hstart⟩ := writeSize_fills hfills.writes hne hsized
        obtain ⟨hfills'', hout⟩ := writeBody_fills hfills'.writes hne' hstart
        refine ⟨fun c' hok => ?_, fun c' herror => by simp [bind, Except.bind, hsized, pure, Except.pure] at herror⟩
        simp only [bind, Except.bind, hsized, pure, Except.pure, Except.ok.injEq] at hok
        subst hok
        exact ⟨(hfills.trans hfills').trans hfills'', hout⟩
  · refine ⟨fun c' hok => (by cases hok), fun c' herror => ?_⟩
    cases herror
    refine ⟨.refl h, .inl fun hnil => hspace ?_⟩
    rw [hnil]
    decide

theorem fillLoop_of_ok (h : c.fillTurn = .ok c') : c.fillLoop = c'.fillLoop := by
  rw [fillLoop]
  split <;> simp_all

theorem fillLoop_of_error (h : c.fillTurn = .error c') : c.fillLoop = c' := by
  rw [fillLoop]
  split <;> simp_all

/-- **Filling the buffer keeps what is still to be sent.** It ends with something to send, unless it
dropped a message or there is none. -/
theorem pending_fillLoop (h : c.Writes) : Fills c c.fillLoop ∧ Ends c c.fillLoop := by
  induction c using fillLoop.induct with
  | case1 c c' hturn =>
    rw [fillLoop_of_error hturn]
    exact (fillTurn_fills h).2 c' hturn
  | case2 c c' hturn ih =>
    obtain ⟨hfills, hout⟩ := (fillTurn_fills h).1 c' hturn
    obtain ⟨hfills', -⟩ := ih hfills.writes
    rw [fillLoop_of_ok hturn]
    refine ⟨hfills.trans hfills', .inl fun hnil => hout ?_⟩
    exact List.prefix_nil.mp (hnil ▸ hfills'.grows)

/-- **One call of `handleWrite`** sends the first bytes of what is still to be sent. -/
theorem handleWrite_spec (h : c.Writes) (n : ℕ) :
    ∃ sent, c.handleWrite (.accepted n) = .ok (sent, { c.fillLoop with outBuf := c.fillLoop.outBuf.drop n }) ∧
      sent = c.fillLoop.outBuf.take n ∧
      Writes { c.fillLoop with outBuf := c.fillLoop.outBuf.drop n } ∧
      sent ++ pending { c.fillLoop with outBuf := c.fillLoop.outBuf.drop n } = c.pending := by
  obtain ⟨hfills, -⟩ := pending_fillLoop h
  have hwrites := hfills.writes
  refine ⟨_, ?_, rfl, ⟨hwrites.connected, ?_, hwrites.messages, hwrites.packet⟩, ?_⟩
  · unfold handleWrite
    rw [if_pos h.connected.1]
    simp only
    split_ifs with hnil
    · rw [hnil, List.take_nil, List.drop_nil, ← hnil]
    · rfl
  · show (c.fillLoop.outBuf.drop n).length ≤ maxNIOBuffers
    have hbuffer := hwrites.buffer
    rw [List.length_drop]
    omega
  · rw [← hfills.pending]
    simp only [pending, packetBytes]
    rw [← List.append_assoc, ← List.append_assoc, List.take_append_drop]

end

end NIOClient

/-! ## The link -/

/-- Both ends of a connection: the bytes that were sent and have not come, and what was queued, received
and posted so far. -/
structure Link where
  writer : NIOClient
  wire : List Byte
  reader : NIOClient
  queued : List MiniData
  received : List Byte
  posted : List MiniData

namespace Link

open NIOClient

/-- A new connection. -/
def start : Link := ⟨connected, [], connected, [], [], []⟩

/-- **A step of the link**: a message is queued, the socket takes some bytes of what is written, or some
bytes that were sent are read. -/
inductive Step (s : Link) : Link → Prop
  | send (zData : MiniData) (hmax : zData.getLength ≤ maxMessage) :
      Step s { s with writer := s.writer.sendData zData, queued := s.queued ++ [zData] }
  | write (n : ℕ) {sent : List Byte} {writer : NIOClient}
      (hwrite : s.writer.handleWrite (.accepted n) = .ok (sent, writer)) :
      Step s { s with writer := writer, wire := s.wire ++ sent }
  | read {chunk rest : List Byte} {completed : List MiniData} {reader : NIOClient}
      (hwire : s.wire = chunk ++ rest) (hlen : chunk.length ≤ s.reader.freeSpace)
      (hread : s.reader.handleRead (.bytes chunk) = (completed, .ok reader)) :
      Step s { s with reader := reader, wire := rest, received := s.received ++ chunk,
                      posted := s.posted ++ completed }

/-- Any interleaving. -/
def Reached (s : Link) : Prop := Relation.ReflTransGen Step start s

/-- The messages that are not empty. -/
def deliverable (queued : List MiniData) : List (List Byte) := (queued.map MiniData.bytes).filter (! ·.isEmpty)

/-- **What holds of a link**: the bytes received, those on the wire and those still to be sent are the
frames of the messages that are not empty. -/
structure Holds (s : Link) : Prop where
  writes : s.writer.Writes
  reads : ReadsFrom connected s.received s.posted s.reader
  max : ∀ m ∈ s.queued, m.getLength ≤ maxMessage
  stream : s.received ++ s.wire ++ s.writer.pending = format.frames (deliverable s.queued)

theorem pending_sendData (c : NIOClient) (zData : MiniData) :
    (c.sendData zData).pending = c.pending ++ format.frames (deliverable [zData]) := by
  have hpacket : (c.sendData zData).packetBytes = c.packetBytes := rfl
  have hmessages : (c.sendData zData).messages = c.messages ++ [zData.bytes] := rfl
  have hout : (c.sendData zData).outBuf = c.outBuf := rfl
  simp only [pending, hpacket, hmessages, hout, deliverable, List.filter_append, FrameFormat.frames_append,
    List.map_cons, List.map_nil, List.append_assoc]

theorem writes_sendData {c : NIOClient} (h : c.Writes) {zData : MiniData} (hmax : zData.getLength ≤ maxMessage) :
    (c.sendData zData).Writes := by
  refine ⟨h.connected, h.buffer, fun m hm => ?_, h.packet⟩
  rcases List.mem_append.mp hm with hm | hm
  · exact h.messages m hm
  · rw [List.mem_singleton.mp hm]
    exact hmax

theorem holds_start : start.Holds :=
  ⟨⟨connected_connected, Nat.zero_le _, fun _ hm => absurd hm List.not_mem_nil, fun hne => absurd rfl hne⟩, .start,
    fun _ hm => absurd hm List.not_mem_nil, rfl⟩

/-- **A step keeps it.** -/
theorem Step.holds {s s' : Link} (hstep : Step s s') (h : s.Holds) : s'.Holds := by
  cases hstep with
  | send zData hmax =>
    refine ⟨writes_sendData h.writes hmax, h.reads, fun m hm => ?_, ?_⟩
    · rcases List.mem_append.mp hm with hm | hm
      · exact h.max m hm
      · rwa [List.mem_singleton.mp hm]
    · show s.received ++ s.wire ++ (s.writer.sendData zData).pending = _
      rw [pending_sendData, ← List.append_assoc, h.stream, ← FrameFormat.frames_append, deliverable,
        deliverable, deliverable, ← List.filter_append, ← List.map_append]
  | write n hwrite =>
    obtain ⟨sent, hwrite', -, hwrites, hpending⟩ := handleWrite_spec h.writes n
    rw [hwrite', Except.ok.injEq, Prod.mk.injEq] at hwrite
    obtain ⟨rfl, rfl⟩ := hwrite
    refine ⟨hwrites, h.reads, h.max, ?_⟩
    rw [← h.stream, ← hpending]
    simp only [List.append_assoc]
  | read hwire hlen hread =>
    refine ⟨h.writes, h.reads.read hlen hread, h.max, ?_⟩
    rw [← h.stream, hwire]
    simp only [List.append_assoc]

theorem Reached.holds {s : Link} (h : s.Reached) : s.Holds := by
  induction h with
  | refl => exact holds_start
  | tail _ hstep ih => exact hstep.holds ih

/-! ## What is delivered -/

/-- Nothing is left to be written, and nothing to be read. -/
def Idle (s : Link) : Prop :=
  s.writer.messages = [] ∧ s.writer.writeData = [] ∧ s.writer.outBuf = [] ∧ s.wire = []

/-- **What a link is to do.** It posts the messages in order and unchanged; those whose bytes have come are
posted, and all of them when nothing is left to be written or read; this can always be reached by writing
and reading; and reading does not throw. -/
structure Delivers (s : Link) : Prop where
  inOrder : s.posted <+: s.queued
  arrived : ∀ i, format.frames ((s.queued.take i).map MiniData.bytes) <+: s.received →
    s.queued.take i <+: s.posted
  complete : s.Idle → s.posted = s.queued
  drains : ∃ s', Relation.ReflTransGen Step s s' ∧ s'.Idle ∧ s'.queued = s.queued
  reads : ∀ chunk rest, s.wire = chunk ++ rest → chunk.length ≤ s.reader.freeSpace →
    ∃ completed reader, s.reader.handleRead (.bytes chunk) = (completed, .ok reader)

section

variable {s : Link}

theorem deliverable_spec (h : s.Holds) : ∀ m ∈ deliverable s.queued, format.Deliverable m := by
  intro m hm
  obtain ⟨hmem, hne⟩ := List.mem_filter.mp hm
  obtain ⟨zData, hz, rfl⟩ := List.mem_map.mp hmem
  exact ⟨by simpa using hne, h.max zData hz⟩

/-- The deframer of the bytes that were received, and of the frames that they are a part of. -/
theorem Holds.run (h : s.Holds) :
    s.posted = (format.run (.header []) s.received).2.map MiniData.mk ∧ s.reader.Connected ∧
      s.reader.IsAt s.reader.inBuf (format.run (.header []) s.received).1 ∧
      format.run (.header []) (s.received ++ s.wire ++ s.writer.pending) =
        (.header [], deliverable s.queued) := by
  obtain ⟨hposted, hc, hat⟩ := h.reads.spec connected_connected isAt_connected
  exact ⟨hposted, hc, hat, by rw [h.stream]; exact format.run_frames (deliverable_spec h)⟩

/-- What is posted is a part of the messages that are not empty. -/
theorem Holds.posted_prefix (h : s.Holds) : s.posted <+: (deliverable s.queued).map MiniData.mk := by
  obtain ⟨hposted, -, -, hrun⟩ := h.run
  have hpre : s.received <+: s.received ++ s.wire ++ s.writer.pending := by
    rw [List.append_assoc]
    exact List.prefix_append _ _
  have hmessages := format.prefix_of_run (s := .header []) hpre
  rw [hrun] at hmessages
  rw [hposted]
  exact hmessages.map _

/-- Reading what was sent does not throw. -/
theorem Holds.reads_ok (h : s.Holds) {chunk rest : List Byte} (hwire : s.wire = chunk ++ rest)
    (hlen : chunk.length ≤ s.reader.freeSpace) :
    ∃ completed reader, s.reader.handleRead (.bytes chunk) = (completed, .ok reader) := by
  obtain ⟨-, hc, hat, hrun⟩ := h.run
  have hpre : s.received ++ chunk <+: s.received ++ s.wire ++ s.writer.pending := by
    rw [hwire]
    simp only [List.append_assoc, List.prefix_append_right_inj]
    exact List.prefix_append _ _
  have hworks := format.working_of_run (s := .header []) hpre (by rw [hrun]; simp) (by rw [hrun]; simp)
  rw [FrameFormat.run_append] at hworks
  obtain ⟨-, ⟨hfailed, -⟩ | ⟨reader, hok, -⟩⟩ := handleRead_spec hc hat hlen
  · exact absurd hfailed hworks.1
  · exact ⟨_, reader, Prod.ext rfl hok⟩

/-- The reader has space for a byte that was sent. -/
theorem Holds.freeSpace_pos (h : s.Holds) : 0 < s.reader.freeSpace := by
  obtain ⟨-, hc, hat, hrun⟩ := h.run
  refine NIOClient.freeSpace_pos hat ?_
  have hpre : s.received <+: s.received ++ s.wire ++ s.writer.pending := by
    rw [List.append_assoc]
    exact List.prefix_append _ _
  exact (format.working_of_run (s := .header []) hpre (by rw [hrun]; simp) (by rw [hrun]; simp)).2

/-- What is on the wire can be read. -/
theorem Holds.drain_wire (h : s.Holds) : ∃ s', Relation.ReflTransGen Step s s' ∧ s'.wire = [] ∧
    s'.writer = s.writer ∧ s'.queued = s.queued := by
  induction hn : s.wire.length generalizing s with
  | zero => exact ⟨s, .refl, List.eq_nil_of_length_eq_zero hn, rfl, rfl⟩
  | succ n ih =>
    obtain ⟨b, rest, hcons⟩ := List.exists_cons_of_length_eq_add_one hn
    have hwire : s.wire = [b] ++ rest := hcons
    have hlen : [b].length ≤ s.reader.freeSpace := h.freeSpace_pos
    obtain ⟨completed, reader, hread⟩ := h.reads_ok hwire hlen
    have hstep := Step.read hwire hlen hread
    obtain ⟨s', hsteps, hidle, hwriter, hqueued⟩ := ih (hstep.holds h) (by
      rw [hcons, List.length_cons] at hn
      exact Nat.succ.inj hn)
    exact ⟨s', .head hstep hsteps, hidle, hwriter, hqueued⟩

/-- What is queued can be written. -/
theorem Holds.drain_writer (h : s.Holds) : ∃ s', Relation.ReflTransGen Step s s' ∧ s'.Holds ∧
    s'.queued = s.queued ∧ s'.writer.messages = [] ∧ s'.writer.writeData = [] ∧ s'.writer.outBuf = [] := by
  -- by induction on the bytes and the messages that are left
  induction hn : s.writer.pending.length + s.writer.messages.length using Nat.strong_induction_on
    generalizing s with
  | _ n ih =>
    obtain ⟨sent, hwrite, hsent, hwrites, hpending⟩ := handleWrite_spec h.writes s.writer.fillLoop.outBuf.length
    obtain ⟨hfills, hends⟩ := pending_fillLoop h.writes
    rw [List.take_length] at hsent
    have hstep := Step.write s.writer.fillLoop.outBuf.length hwrite
    have hlen := congrArg List.length hpending
    rw [List.length_append] at hlen
    have hmessages := hfills.messages
    by_cases hidle : s.writer.fillLoop.writeData = [] ∧ s.writer.fillLoop.messages = []
    · exact ⟨_, .single hstep, hstep.holds h, rfl, hidle.2, hidle.1, List.drop_length⟩
    · have hfewer : ∀ s' : Link, s'.writer.pending.length + sent.length = s.writer.pending.length →
          s'.writer.messages = s.writer.fillLoop.messages →
          s'.writer.pending.length + s'.writer.messages.length < n := by
        intro s' hlen' hsame
        rw [hsame]
        rcases hends with hout | hless | hend
        · have hpos : 0 < sent.length := by
            rw [hsent]
            exact List.length_pos_iff.mpr hout
          omega
        · omega
        · exact absurd hend hidle
      obtain ⟨s', hsteps, hs', hqueued, hdone⟩ :=
        ih _ (hfewer _ (by rw [Nat.add_comm]; exact hlen) rfl) (hstep.holds h) rfl
      exact ⟨s', .head hstep hsteps, hs', hqueued, hdone⟩

/-- **What holds of a link is what it is to do**, when no message is empty. -/
theorem Holds.delivers (h : s.Holds) (hne : ∀ m ∈ s.queued, m.getLength ≠ 0) : s.Delivers := by
  obtain ⟨hposted, -, -, hrun⟩ := h.run
  have hall : ∀ i, deliverable (s.queued.take i) = (s.queued.take i).map MiniData.bytes := by
    intro i
    refine List.filter_eq_self.mpr fun m hm => ?_
    obtain ⟨zData, hz, rfl⟩ := List.mem_map.mp hm
    have hlen := hne zData (List.mem_of_mem_take hz)
    cases hbytes : zData.bytes with
    | nil => exact absurd (by rw [MiniData.getLength, hbytes]; rfl) hlen
    | cons b bs => rfl
  have hback : ∀ ms : List MiniData, (ms.map MiniData.bytes).map MiniData.mk = ms := by
    intro ms
    rw [List.map_map]
    exact List.map_id ms
  have hqueued : (deliverable s.queued).map MiniData.mk = s.queued := by
    have htake := hall s.queued.length
    rw [List.take_length] at htake
    rw [htake, hback]
  refine ⟨?_, fun i hi => ?_, fun hidle => ?_, ?_, fun chunk rest hwire hlen => h.reads_ok hwire hlen⟩
  · have hpre := h.posted_prefix
    rwa [hqueued] at hpre
  · have hmessages := format.prefix_of_run (s := .header []) hi
    have hdeliverable : ∀ m ∈ (s.queued.take i).map MiniData.bytes, format.Deliverable m := by
      intro m hm
      refine deliverable_spec h m ?_
      rw [← hall i] at hm
      exact List.Sublist.subset (((List.take_sublist i s.queued).map _).filter _) hm
    rw [format.run_frames hdeliverable] at hmessages
    rw [hposted, ← hback (s.queued.take i)]
    exact hmessages.map _
  · obtain ⟨hmessages, hdata, hout, hwire⟩ := hidle
    have hpending : s.writer.pending = [] := by simp [pending, packetBytes, hmessages, hdata, hout]
    rw [hwire, hpending, List.append_nil, List.append_nil] at hrun
    rw [hposted, hrun, hqueued]
  · obtain ⟨s₁, hsteps₁, hs₁, hqueued₁, hmessages, hdata, hout⟩ := h.drain_writer
    obtain ⟨s₂, hsteps₂, hwire, hwriter, hqueued₂⟩ := hs₁.drain_wire
    refine ⟨s₂, hsteps₁.trans hsteps₂, ?_, hqueued₂.trans hqueued₁⟩
    rw [Idle, hwriter]
    exact ⟨hmessages, hdata, hout, hwire⟩

/-- Messages can be queued. -/
theorem exists_queued {ms : List MiniData} (hmax : ∀ m ∈ ms, m.getLength ≤ maxMessage) :
    ∃ s, Reached s ∧ s.queued = ms := by
  induction ms using List.reverseRecOn with
  | nil => exact ⟨start, .refl, rfl⟩
  | append_singleton ms m ih =>
    obtain ⟨s, hs, rfl⟩ := ih fun m' hm' => hmax m' (List.mem_append_left _ hm')
    exact ⟨_, hs.tail (.send m (hmax m (by simp))), rfl⟩

/-- **All messages are delivered exactly if none is empty.** -/
theorem delivers_iff {ms : List MiniData} (hmax : ∀ m ∈ ms, m.getLength ≤ maxMessage) :
    (∀ s, Reached s → s.queued = ms → s.Delivers) ↔ ∀ m ∈ ms, m.getLength ≠ 0 := by
  constructor
  · intro h m hm hempty
    -- a run that is through has posted the empty message, which no reader does
    obtain ⟨s, hs, hqueued⟩ := exists_queued hmax
    obtain ⟨s', hsteps, hidle, hqueued'⟩ := (h s hs hqueued).drains
    have hs' : Reached s' := hs.trans hsteps
    have hposted := (h s' hs' (hqueued'.trans hqueued)).complete hidle
    have hmem : m ∈ s'.posted := by rwa [hposted, hqueued', hqueued]
    obtain ⟨bytes, hbytes, rfl⟩ := List.mem_map.mp (hs'.holds.posted_prefix.subset hmem)
    exact (deliverable_spec hs'.holds bytes hbytes).1 (List.eq_nil_of_length_eq_zero hempty)
  · rintro hne s hs rfl
    exact hs.holds.delivers hne

end

/-- **What the framing delivers.** The queued messages, each of at most 16 MB, arrive exactly if none is
empty: over all interleavings of queueing, of writes of which the socket takes any part, and of reads of
any chunk. And a reader of any stream throws on every header out of range and never gets deaf exactly if
no header of the stream, as far as it has come, is zero or negative. -/
theorem framing_iff (ms : List MiniData) (hmax : ∀ m ∈ ms, m.getLength ≤ maxMessage)
    (stream : List Byte) :
    ((∀ s, Reached s → s.queued = ms → s.Delivers) ↔ ∀ m ∈ ms, m.getLength ≠ 0) ∧
    ((∀ received posted c, received <+: stream → ReadsFrom connected received posted c →
      HeadersInRange received ∧ ¬ c.Deaf) ↔ Clean stream) :=
  ⟨delivers_iff hmax, survives_iff stream⟩

/-- Two messages, of one byte and of three. -/
def sampleMessages : List MiniData := [⟨[7]⟩, ⟨[8, 9, 10]⟩]

/-- What a sender writes for them. -/
def sampleStream : List Byte := [0, 0, 0, 1, 7, 0, 0, 0, 3, 8, 9, 10]

theorem framing_iff_two :
    ((∀ s, Reached s → s.queued = sampleMessages → s.Delivers) ↔ ∀ m ∈ sampleMessages, m.getLength ≠ 0) ∧
    ((∀ received posted c, received <+: sampleStream → ReadsFrom connected received posted c →
      HeadersInRange received ∧ ¬ c.Deaf) ↔ Clean sampleStream) :=
  framing_iff sampleMessages (by decide) sampleStream

/-- **An empty message, and the header of one.** A link does not deliver an empty message, and a reader
is deaf after a header that is zero, as after one that is negative. -/
theorem not_framing :
    (¬ ∀ s, Reached s → s.queued = [⟨[]⟩] → s.Delivers) ∧
    (∃ posted c, ReadsFrom connected [0, 0, 0, 0] posted c ∧ c.Deaf) ∧
    ∃ posted c, ReadsFrom connected [255, 255, 255, 255] posted c ∧ c.Deaf := by
  refine ⟨fun h => ?_, ?_, ?_⟩
  · exact (delivers_iff (by decide)).mp h ⟨[]⟩ List.mem_cons_self rfl
  · obtain ⟨c, hreads, hdeaf⟩ :=
      exists_deaf connected_connected isAt_connected [0, 0, 0, 0] rfl (by decide)
    exact ⟨[], c, hreads, hdeaf⟩
  · obtain ⟨c, hreads, hdeaf⟩ :=
      exists_deaf connected_connected isAt_connected [255, 255, 255, 255] rfl (by decide)
    exact ⟨[], c, hreads, hdeaf⟩

end Link

end Minima
