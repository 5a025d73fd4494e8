import Minima.Base.Codec
import Minima.Lib.Framing

/-! # `NIOClient`: messages over a socket

A client sends each queued message behind its length, through a buffer of fixed size, as far as the
socket takes the bytes. What it receives it takes apart again, as far as the bytes have come.

* **`NIOClient.handleRead`**, **`NIOClient.handleWrite`** — the two ends of a connection.
* **`NIOClient.handleRead_spec`** — the reader is the deframer of the bytes it receives.
* **`NIOClient.Deaf`** — a reader that ignores all further input.
* **`NIOClient.survives_iff`** — the streams on which no reader gets deaf. -/

namespace Minima

open TwosComplement

/-- `NIOClient`, as far as it frames: the buffers with what is in them, the packet that is read and the
packet that is written, the queue, and whether a poster for its messages is set. -/
structure NIOClient where
  socketOpen : Bool
  posting : Bool
  inBuf : List Byte
  readCurrentPosition : ℤ
  readCurrentLimit : ℤ
  readByteArray : Option (List Byte)
  outBuf : List Byte
  writePosition : ℕ
  writeLimit : ℕ
  writeStart : Bool
  writeData : List Byte
  messages : List (List Byte)

namespace NIOClient

/-- `MAX_NIO_BUFFERS`. -/
def maxNIOBuffers : ℕ := 8 * 1024

/-- `MAX_MESSAGE`. -/
def maxMessage : ℕ := 16 * 1024 * 1024

/-- A client of the server: connected, with a poster. -/
def connected : NIOClient := ⟨true, true, [], 0, 0, none, [], 0, 0, false, [], []⟩

/-- `getInt32BE`. -/
def getInt32BE (p : List Byte) : ℤ := ofSigned p

/-! ## Reading -/

/-- The size of the next packet, when there is no packet yet: four bytes, or no progress. -/
def readSize (c : NIOClient) (buf : List Byte) : Option (Result (NIOClient × List Byte)) :=
  match c.readByteArray with
  | some _ => some (.ok (c, buf))
  | none =>
    if 4 ≤ buf.length then
      if (maxMessage : ℤ) < getInt32BE (buf.take 4) then
        some (throwException ("Message too big for read! " ++ toString (getInt32BE (buf.take 4))))
      else some (.ok ({ c with
        readCurrentLimit := getInt32BE (buf.take 4), readCurrentPosition := 0, readByteArray := some [] },
        buf.drop 4))
    else none

/-- The next bytes of the packet, and the packet when it is complete: at least one byte, or no progress. -/
def readBody (c : NIOClient) (buf : List Byte) : Option (List MiniData × NIOClient × List Byte) :=
  let readremaining := c.readCurrentLimit - c.readCurrentPosition
  let buffread := min (buf.length : ℤ) readremaining
  if buffread ≤ 0 then none
  else
    let array := c.readByteArray.getD [] ++ buf.take buffread.toNat
    let c := { c with readCurrentPosition := c.readCurrentPosition + buffread }
    if c.readCurrentPosition = c.readCurrentLimit then
      some (if c.posting then [⟨array⟩] else [], { c with readByteArray := none }, buf.drop buffread.toNat)
    else some ([], { c with readByteArray := some array }, buf.drop buffread.toNat)

theorem length_readSize {c c' : NIOClient} {buf buf' : List Byte}
    (h : c.readSize buf = some (.ok (c', buf'))) : buf'.length ≤ buf.length := by
  unfold readSize at h
  split at h
  · simp only [Option.some.injEq, Except.ok.injEq, Prod.mk.injEq] at h
    rw [h.2]
  · split_ifs at h
    · exact absurd (Option.some.inj h) (throwException_ne_ok _ _)
    · simp only [Option.some.injEq, Except.ok.injEq, Prod.mk.injEq] at h
      rw [← h.2, List.length_drop]
      omega

theorem length_readBody {c c' : NIOClient} {buf buf' : List Byte} {posted : List MiniData}
    (h : c.readBody buf = some (posted, c', buf')) : buf'.length < buf.length := by
  unfold readBody at h
  simp only at h
  split_ifs at h <;> simp only [Option.some.injEq, Prod.mk.injEq] at h <;> rw [← h.2.2, List.length_drop] <;>
    omega

/-- The loop of `handleRead` over the bytes of the buffer: what it posts, and the client with the bytes
that are left. -/
def parseLoop (c : NIOClient) (buf : List Byte) : List MiniData × Result (NIOClient × List Byte) :=
  match buf with
  | [] => ([], .ok (c, []))
  | b :: bs =>
    match _hsize : c.readSize (b :: bs) with
    | none => ([], .ok (c, b :: bs))
    | some (.error e) => ([], .error e)
    | some (.ok (c, rest)) =>
      match _hbody : c.readBody rest with
      | none => ([], .ok (c, rest))
      | some (posted, c, rest') => (posted ++ (parseLoop c rest').1, (parseLoop c rest').2)
termination_by buf.length
decreasing_by
  all_goals
    have hsize := length_readSize _hsize
    have hbody := length_readBody _hbody
    omega

/-- What `recv` gives: bytes that have come, as many as it likes up to the free space (none when there
are none), or an end of the connection. -/
inductive Recv where
  | closed
  | failed
  | bytes (received : List Byte)

/-- The free space of the buffer. -/
def freeSpace (c : NIOClient) : ℕ := maxNIOBuffers - c.inBuf.length

/-- `handleRead`: what it posts, and the client after it. -/
def handleRead (c : NIOClient) (recv : Recv) : List MiniData × Result NIOClient :=
  if c.socketOpen then
    if c.freeSpace = 0 then ([], .ok c)
    else match recv with
      | .closed => ([], throwException "Socket Closed!")
      | .failed => ([], throwException "Socket recv error")
      | .bytes [] => ([], .ok c)
      | .bytes received =>
        let parsed := c.parseLoop (c.inBuf ++ received)
        (parsed.1, do
          let (c, rest) ← parsed.2
          return { c with inBuf := rest })
  else ([], throwException "Socket Closed!")

/-! ## Writing -/

/-- `sendData`. -/
def sendData (c : NIOClient) (zData : MiniData) : NIOClient := { c with messages := c.messages ++ [zData.bytes] }

/-- The next packet, when there is none: the first message of the queue. An empty one and one that is too
big end the loop, and are gone. -/
def nextPacket (c : NIOClient) : Except NIOClient NIOClient :=
  match c.writeData, c.messages with
  | _ :: _, _ => .ok c
  | [], [] => .error c
  | [], next :: messages =>
    if next = [] then .error { c with messages := messages }
    else if maxMessage < next.length then .error { c with messages := messages, writeData := [] }
    else .ok { c with messages := messages, writeData := next, writePosition := 0, writeLimit := next.length,
                      writeStart := false }

/-- The size of the packet, once: four bytes, or the end of the loop when there is no space. -/
def writeSize (c : NIOClient) : Except NIOClient NIOClient :=
  if c.writeStart then .ok c
  else if 4 ≤ maxNIOBuffers - c.outBuf.length then
    .ok { c with outBuf := c.outBuf ++ MiniData.writeInt32BE c.writeLimit, writeStart := true }
  else .error c

/-- The next bytes of the packet. -/
def writeBody (c : NIOClient) : NIOClient :=
  if c.writeLimit - c.writePosition = 0 then { c with writeData := [] }
  else
    let tocopy := min (c.writeLimit - c.writePosition) (maxNIOBuffers - c.outBuf.length)
    let c := { c with outBuf := c.outBuf ++ (c.writeData.drop c.writePosition).take tocopy
                      writePosition := c.writePosition + tocopy }
    if c.writePosition = c.writeLimit then { c with writeData := [] } else c

/-- One turn of the loop that fills the buffer. An error is its end. -/
def fillTurn (c : NIOClient) : Except NIOClient NIOClient :=
  if c.outBuf.length < maxNIOBuffers then do
    let c ← c.nextPacket
    let c ← c.writeSize
    return c.writeBody
  else .error c

/-- The messages that are left, counted twice, and the packet. -/
def messagesLeft (c : NIOClient) : ℕ := 2 * c.messages.length + if c.writeData = [] then 0 else 1

/-- The bytes of the packet that are left, and its size. -/
def packetLeft (c : NIOClient) : ℕ := c.writeLimit - c.writePosition + if c.writeStart then 0 else 1

theorem nextPacket_progress {c c' : NIOClient} (h : c.nextPacket = .ok c') :
    c' = c ∧ c.writeData ≠ [] ∨ c'.messages.length < c.messages.length := by
  unfold nextPacket at h
  split at h
  · next hdata =>
    simp only [Except.ok.injEq] at h
    exact .inl ⟨h.symm, by simp [hdata]⟩
  · simp at h
  · next hmessages =>
    split_ifs at h
    simp only [Except.ok.injEq] at h
    subst h
    exact .inr (by simp [hmessages])

theorem writeSize_progress {c c' : NIOClient} (h : c.writeSize = .ok c') :
    c'.messages = c.messages ∧ c'.writeData = c.writeData ∧
      (c' = c ∧ c.writeStart = true ∨ c'.packetLeft < c.packetLeft) := by
  unfold writeSize at h
  split_ifs at h with hstart <;> simp only [Except.ok.injEq] at h <;> subst h
  · exact ⟨rfl, rfl, .inl ⟨rfl, hstart⟩⟩
  · exact ⟨rfl, rfl, .inr (by simp [packetLeft, hstart])⟩

theorem writeBody_progress (c : NIOClient) :
    c.writeBody.messages = c.messages ∧ (c.writeBody.writeData = [] ∨
      c.writeBody.writeData = c.writeData ∧ c.writeBody.packetLeft ≤ c.packetLeft ∧
        (c.outBuf.length < maxNIOBuffers → c.writeBody.packetLeft < c.packetLeft)) := by
  unfold writeBody
  split_ifs with hdone
  · exact ⟨rfl, .inl rfl⟩
  · simp only
    split_ifs with hlast
    · exact ⟨rfl, .inl rfl⟩
    · refine ⟨rfl, .inr ⟨rfl, ?_, fun hspace => ?_⟩⟩ <;> simp only [packetLeft] <;> omega

/-- What a turn goes through. -/
theorem fillTurn_eq_ok {c c' : NIOClient} (h : c.fillTurn = .ok c') :
    c.outBuf.length < maxNIOBuffers ∧ ∃ packet sized, c.nextPacket = .ok packet ∧
      packet.writeSize = .ok sized ∧ c' = sized.writeBody := by
  unfold fillTurn at h
  split_ifs at h with hspace
  refine ⟨hspace, ?_⟩
  cases hpacket : c.nextPacket with
  | error e =>
    rw [hpacket] at h
    cases h
  | ok packet =>
    rw [hpacket] at h
    cases hsized : packet.writeSize with
    | error e => simp [hsized, bind, Except.bind] at h
    | ok sized =>
      simp only [hsized, bind, Except.bind, pure, Except.pure, Except.ok.injEq] at h
      exact ⟨packet, sized, rfl, hsized, h.symm⟩

/-- **A turn makes progress**: it takes a message, ends the packet, or writes a part of it. -/
theorem fillTurn_progress {c c' : NIOClient} (h : c.fillTurn = .ok c') :
    Prod.Lex (· < ·) (· < ·) (c'.messagesLeft, c'.packetLeft) (c.messagesLeft, c.packetLeft) := by
  obtain ⟨hspace, packet, sized, hpacket, hsized, rfl⟩ := fillTurn_eq_ok h
  obtain ⟨hmessages, hdata, hsize⟩ := writeSize_progress hsized
  obtain ⟨hmessages', hbody⟩ := sized.writeBody_progress
  rw [Prod.lex_def]
  rcases nextPacket_progress hpacket with ⟨rfl, hne⟩ | hless
  · rcases hbody with hended | ⟨hdata', hle, hlt⟩
    · -- the packet is at its end
      refine .inl ?_
      simp only [messagesLeft, hmessages', hmessages, if_pos hended, if_neg hne]
      omega
    · refine .inr ⟨?_, ?_⟩
      · simp only [messagesLeft, hmessages', hmessages, hdata', hdata]
      · rcases hsize with ⟨rfl, -⟩ | hsize
        · exact hlt hspace
        · exact lt_of_le_of_lt hle hsize
  · refine .inl ?_
    simp only [messagesLeft, hmessages', hmessages]
    split_ifs <;> omega

/-- The loop of `handleWrite` that fills the buffer. -/
def fillLoop (c : NIOClient) : NIOClient :=
  match _hturn : c.fillTurn with
  | .error c => c
  | .ok c => fillLoop c
termination_by (c.messagesLeft, c.packetLeft)
decreasing_by exact fillTurn_progress _hturn

/-- What `send` takes: so many bytes of those it is given, or an error. -/
inductive Send where
  | failed
  | accepted (n : ℕ)

/-- `handleWrite`: the bytes that it sends, and the client after it. -/
def handleWrite (c : NIOClient) (send : Send) : Result (List Byte × NIOClient) :=
  if c.socketOpen then
    let c := c.fillLoop
    if c.outBuf = [] then .ok ([], c)
    else match send with
      | .failed => throwException "Socket send error"
      | .accepted n => .ok (c.outBuf.take n, { c with outBuf := c.outBuf.drop n })
  else throwException "Socket Closed!"

/-! ## The reader is a deframer -/

/-- The frames of the network: a length in four bytes, up to 16 MB. -/
def format : FrameFormat Byte where
  size := 4
  max := maxMessage
  encode := MiniData.writeInt32BE
  decode := getInt32BE
  size_pos := by decide
  length_encode := MiniData.length_writeInt32BE
  decode_encode := fun n hn => MiniData.ofSigned_writeInt32BE (lt_of_le_of_lt hn (by decide))

/-- A client that is connected and posts what it reads. -/
def Connected (c : NIOClient) : Prop := c.socketOpen = true ∧ c.posting = true

/-- What a client is at, with these bytes in its buffer. -/
def IsAt (c : NIOClient) (buf : List Byte) : Deframer Byte → Prop
  | .header got => c.readByteArray = none ∧ buf = got ∧ got.length < 4
  | .body limit got => c.readByteArray = some got ∧ c.readCurrentLimit = limit ∧
      c.readCurrentPosition = got.length ∧ got.length < limit ∧ buf = []
  | .stuck => c.readByteArray.isSome = true ∧ c.readCurrentLimit ≤ c.readCurrentPosition
  | .failed => False

/-- The loop does what a deframer does: it posts the same messages, and throws or is at the same. -/
def Parses (parsed : List MiniData × Result (NIOClient × List Byte))
    (deframed : Deframer Byte × List (List Byte)) : Prop :=
  parsed.1 = deframed.2.map MiniData.mk ∧
    (deframed.1 = .failed ∧ Throws parsed.2 ∨
      ∃ c buf, parsed.2 = .ok (c, buf) ∧ c.Connected ∧ c.IsAt buf deframed.1)

/-- The part of a turn behind the size. -/
def parseBody (c : NIOClient) (rest : List Byte) : List MiniData × Result (NIOClient × List Byte) :=
  match c.readBody rest with
  | none => ([], .ok (c, rest))
  | some (posted, c, rest') => (posted ++ (c.parseLoop rest').1, (c.parseLoop rest').2)

theorem parseLoop_nil (c : NIOClient) : c.parseLoop [] = ([], .ok (c, [])) := by rw [parseLoop]

theorem parseLoop_eq (c : NIOClient) {buf : List Byte} (hne : buf ≠ []) :
    c.parseLoop buf = match c.readSize buf with
      | none => ([], .ok (c, buf))
      | some (.error e) => ([], .error e)
      | some (.ok (c, rest)) => c.parseBody rest := by
  obtain ⟨b, bs, rfl⟩ := List.exists_cons_of_ne_nil hne
  rw [parseLoop]
  unfold parseBody
  split <;> simp only [*]
  split <;> simp only [*]

/-- What comes after a part of the stream. -/
theorem Parses.append {posted : List MiniData} {parsed : List MiniData × Result (NIOClient × List Byte)}
    {st : Deframer Byte} {bs cs : List Byte} (hposted : posted = (format.run st bs).2.map MiniData.mk)
    (h : Parses parsed (format.run (format.run st bs).1 cs)) :
    Parses (posted ++ parsed.1, parsed.2) (format.run st (bs ++ cs)) := by
  rw [FrameFormat.run_append]
  refine ⟨?_, h.2⟩
  rw [List.map_append, ← hposted, ← h.1]

/-- A body that has not all its bytes yet takes the next ones. -/
theorem parseBody_spec {c : NIOClient} {limit : ℕ} {got d : List Byte} (hc : c.Connected)
    (h : c.IsAt [] (.body limit got))
    (ih : ∀ (c' : NIOClient) rest, rest.length < d.length → c'.Connected → c'.IsAt [] (.header []) →
      Parses (c'.parseLoop rest) (format.run (.header []) rest)) :
    Parses (c.parseBody d) (format.run (.body limit got) d) := by
  have hat := h
  obtain ⟨harray, hlimit, hpos, hlt, -⟩ := h
  unfold parseBody readBody
  simp only [harray, hlimit, hpos, Option.getD_some, hc.2, if_true]
  by_cases hnil : d = []
  · -- no bytes are left
    subst hnil
    rw [if_pos (by simp)]
    exact ⟨rfl, .inr ⟨c, [], rfl, hc, hat⟩⟩
  have hd : 0 < d.length := List.length_pos_iff.mpr hnil
  rw [if_neg (by omega)]
  by_cases hshort : got.length + d.length < limit
  · -- all of them are taken, and the body is not complete
    have hmin : (min (d.length : ℤ) (limit - got.length)).toNat = d.length := by omega
    rw [if_neg (by omega), hmin, List.take_length, List.drop_length, format.run_body_lt hshort]
    simp only [parseLoop_nil]
    refine ⟨rfl, .inr ⟨_, [], rfl, ⟨hc.1, rfl⟩, rfl, rfl, ?_, ?_, rfl⟩⟩
    · simp only [List.length_append]
      omega
    · simp only [List.length_append]
      omega
  · -- the body is complete
    have hmin : (min (d.length : ℤ) (limit - got.length)).toNat = limit - got.length := by omega
    have hrun := @FrameFormat.run_body_eq _ format limit got (d.take (limit - got.length))
      (by rw [List.length_take]; omega) hlt
    rw [if_pos (by omega), hmin]
    conv => rhs; rw [← List.take_append_drop (limit - got.length) d]
    refine Parses.append (by rw [hrun]; rfl) ?_
    rw [hrun]
    refine ih _ _ ?_ ⟨hc.1, rfl⟩ ⟨rfl, rfl, by decide⟩
    rw [List.length_drop]
    omega

/-- **The loop of `handleRead` is the deframer**, on the bytes of the buffer. -/
theorem parseLoop_spec {c : NIOClient} {buf chunk : List Byte} {st : Deframer Byte} (hc : c.Connected)
    (h : c.IsAt buf st) : Parses (c.parseLoop (buf ++ chunk)) (format.run st chunk) := by
  -- by induction on the number of bytes, one turn at a time
  induction hn : (buf ++ chunk).length using Nat.strong_induction_on generalizing c buf chunk st with
  | _ n ih =>
    have hlater : ∀ (d : List Byte), d.length < n + 1 → ∀ (c' : NIOClient) rest, rest.length < d.length →
        c'.Connected → c'.IsAt [] (.header []) → Parses (c'.parseLoop rest) (format.run (.header []) rest) := by
      intro d hd c' rest hrest hc' hat
      exact ih rest.length (by omega) hc' hat rfl
    by_cases hne : buf ++ chunk = []
    · obtain ⟨rfl, rfl⟩ := List.append_eq_nil_iff.mp hne
      rw [List.append_nil, parseLoop_nil]
      cases st with
      | failed => exact absurd h id
      | header _ | body _ _ | stuck => exact ⟨rfl, .inr ⟨c, [], rfl, hc, h⟩⟩
    rw [c.parseLoop_eq hne]
    cases st with
    | failed => exact absurd h id
    | stuck =>
      obtain ⟨hsome, hle⟩ := h
      obtain ⟨array, harray⟩ := Option.isSome_iff_exists.mp hsome
      have hbody : c.readBody (buf ++ chunk) = none := by
        unfold readBody
        exact if_pos (by omega)
      rw [readSize, harray, FrameFormat.run_stuck]
      simp only [parseBody, hbody]
      exact ⟨rfl, .inr ⟨c, _, rfl, hc, hsome, hle⟩⟩
    | body limit got =>
      have harray := h.1
      obtain rfl : buf = [] := h.2.2.2.2
      rw [List.nil_append] at hn ⊢
      rw [readSize, harray]
      exact parseBody_spec hc h (hlater chunk (by omega))
    | header got =>
      obtain ⟨harray, rfl, hgot⟩ := h
      by_cases hshort : (buf ++ chunk).length < 4
      · -- not enough for the size
        have hrun := @FrameFormat.run_header_lt _ format buf chunk (by rwa [List.length_append] at hshort)
        rw [readSize, harray, hrun]
        simp only [if_neg (not_le.mpr hshort)]
        exact ⟨rfl, .inr ⟨c, _, rfl, hc, harray, rfl, hshort⟩⟩
      · -- the size is complete
        obtain ⟨size, d, rfl, hsize⟩ : ∃ size d, chunk = size ++ d ∧ buf.length + size.length = 4 := by
          refine ⟨chunk.take (4 - buf.length), chunk.drop (4 - buf.length), (List.take_append_drop _ _).symm, ?_⟩
          rw [List.length_append] at hshort
          rw [List.length_take]
          omega
        have hfour : (buf ++ size).length = 4 := by rw [List.length_append, hsize]
        have hrun := @FrameFormat.run_header_eq _ format buf size hsize hgot
        rw [← List.append_assoc, readSize, harray, List.take_left' hfour, List.drop_left' hfour]
        rw [← List.append_assoc, List.length_append, hfour] at hn
        simp only [List.length_append, hfour, if_pos (Nat.le_add_right 4 d.length)]
        refine @Parses.append [] _ _ size d (by rw [hrun]; rfl) ?_
        rw [hrun, FrameFormat.afterHeader]
        show Parses _ (format.run (if (maxMessage : ℤ) < getInt32BE (buf ++ size) then .failed
          else if getInt32BE (buf ++ size) ≤ 0 then .stuck
          else .body (getInt32BE (buf ++ size)).toNat []) d)
        by_cases hbig : (maxMessage : ℤ) < getInt32BE (buf ++ size)
        · rw [if_pos hbig, if_pos hbig, FrameFormat.run_failed]
          exact ⟨rfl, .inl ⟨rfl, _, rfl⟩⟩
        rw [if_neg hbig, if_neg hbig]
        by_cases hpos : getInt32BE (buf ++ size) ≤ 0
        · -- no byte is taken from now on
          rw [if_pos hpos, FrameFormat.run_stuck]
          simp only [parseBody, readBody, sub_zero, if_pos (le_trans (min_le_right _ _) hpos)]
          exact ⟨rfl, .inr ⟨_, _, rfl, hc, rfl, hpos⟩⟩
        · rw [if_neg hpos]
          refine parseBody_spec hc ⟨rfl, ?_, rfl, ?_, rfl⟩ (hlater d (by omega))
          · have hnonneg : 0 ≤ getInt32BE (buf ++ size) := by omega
            exact (Int.toNat_of_nonneg hnonneg).symm
          · rw [List.length_nil]
            omega

/-- The bytes that wait in the buffer are never as many as fit in it, unless the reader is stuck. -/
theorem freeSpace_pos {c : NIOClient} {st : Deframer Byte} (h : c.IsAt c.inBuf st) (hst : st ≠ .stuck) :
    0 < c.freeSpace := by
  have hmax : maxNIOBuffers = 8192 := rfl
  cases st with
  | header got =>
    obtain ⟨-, hbuf, hlt⟩ := h
    rw [freeSpace, hbuf]
    omega
  | body limit got =>
    rw [freeSpace, h.2.2.2.2, List.length_nil]
    omega
  | stuck => exact absurd rfl hst
  | failed => exact absurd h id

theorem handleRead_nil {c : NIOClient} (hc : c.Connected) : c.handleRead (.bytes []) = ([], .ok c) := by
  unfold handleRead
  rw [if_pos hc.1, ite_self]

/-- **`handleRead` is the deframer**, on the bytes that it receives. -/
theorem handleRead_spec {c : NIOClient} {st : Deframer Byte} {chunk : List Byte} (hc : c.Connected)
    (h : c.IsAt c.inBuf st) (hlen : chunk.length ≤ c.freeSpace) :
    (c.handleRead (.bytes chunk)).1 = (format.run st chunk).2.map MiniData.mk ∧
      ((format.run st chunk).1 = .failed ∧ Throws (c.handleRead (.bytes chunk)).2 ∨
        ∃ c', (c.handleRead (.bytes chunk)).2 = .ok c' ∧ c'.Connected ∧
          c'.IsAt c'.inBuf (format.run st chunk).1) := by
  by_cases hnil : chunk = []
  · -- nothing has come
    subst hnil
    rw [handleRead_nil hc]
    exact ⟨rfl, .inr ⟨c, rfl, hc, h⟩⟩
  have hspace : c.freeSpace ≠ 0 := by
    have hpos := List.length_pos_iff.mpr hnil
    omega
  obtain ⟨b, bs, rfl⟩ := List.exists_cons_of_ne_nil hnil
  obtain ⟨hposted, hend⟩ := @parseLoop_spec _ _ (b :: bs) _ hc h
  unfold handleRead
  rw [if_pos hc.1, if_neg hspace]
  refine ⟨hposted, ?_⟩
  simp only
  rcases hend with ⟨hfailed, what, hthrows⟩ | ⟨c', rest, hok, hc', hat⟩
  · exact .inl ⟨hfailed, what, by rw [hthrows]; rfl⟩
  · refine .inr ⟨{ c' with inBuf := rest }, by rw [hok]; rfl, hc', ?_⟩
    cases hst : (format.run st (b :: bs)).1 with
    | header _ | body _ _ | stuck | failed =>
      rw [hst] at hat
      exact hat

theorem connected_connected : connected.Connected := ⟨rfl, rfl⟩

theorem isAt_connected : connected.IsAt connected.inBuf (.header []) := ⟨rfl, rfl, by decide⟩

/-! ## Runs of the reader -/

/-- **Reading on.** From a client on these bytes come, in any chunks, these messages are posted, and no
call throws. -/
inductive ReadsFrom (start : NIOClient) : List Byte → List MiniData → NIOClient → Prop
  | start : ReadsFrom start [] [] start
  | read {received chunk : List Byte} {posted completed : List MiniData} {c c' : NIOClient}
      (h : ReadsFrom start received posted c) (hlen : chunk.length ≤ c.freeSpace)
      (hread : c.handleRead (.bytes chunk) = (completed, .ok c')) :
      ReadsFrom start (received ++ chunk) (posted ++ completed) c'

section

variable {c : NIOClient} {st : Deframer Byte}

/-- **The messages of a run are those of the deframer**, however the bytes come. -/
theorem ReadsFrom.spec {start : NIOClient} (hstart : start.Connected) (hat : start.IsAt start.inBuf st)
    {received : List Byte} {posted : List MiniData} (h : ReadsFrom start received posted c) :
    posted = (format.run st received).2.map MiniData.mk ∧ c.Connected ∧
      c.IsAt c.inBuf (format.run st received).1 := by
  induction h with
  | start => exact ⟨rfl, hstart, hat⟩
  | @read received chunk posted completed c c' h hlen hread ih =>
    obtain ⟨hposted, hc, hat'⟩ := ih
    obtain ⟨hcompleted, hend⟩ := handleRead_spec hc hat' hlen
    rw [hread] at hcompleted hend
    rw [FrameFormat.run_append, List.map_append, ← hposted, ← hcompleted]
    refine ⟨rfl, ?_⟩
    rcases hend with ⟨-, what, hthrows⟩ | ⟨c'', hok, hc'', hat''⟩
    · cases hthrows
    · cases hok
      exact ⟨hc'', hat''⟩

/-- One read on. -/
theorem ReadsFrom.trans {start c' : NIOClient} {received received' : List Byte} {posted posted' : List MiniData}
    (h : ReadsFrom start received posted c) (h' : ReadsFrom c received' posted' c') :
    ReadsFrom start (received ++ received') (posted ++ posted') c' := by
  induction h' with
  | start => simpa using h
  | read _ hlen hread ih =>
    rw [← List.append_assoc, ← List.append_assoc]
    exact ih.read hlen hread

/-- Bytes can come one by one, as long as the deframer does not fail or get stuck. -/
theorem exists_readsFrom (hc : c.Connected) (hat : c.IsAt c.inBuf st) {bs : List Byte} {st' : Deframer Byte}
    {out : List (List Byte)} (hrun : format.run st bs = (st', out)) (hfailed : st' ≠ .failed)
    (hstuck : st' ≠ .stuck) :
    ∃ c', ReadsFrom c bs (out.map MiniData.mk) c' ∧ c'.Connected ∧ c'.IsAt c'.inBuf st' := by
  induction bs using List.reverseRecOn generalizing st' out with
  | nil =>
    cases hrun
    exact ⟨c, .start, hc, hat⟩
  | append_singleton bs b ih =>
    have hparts := format.run_append st bs [b]
    rw [hrun, Prod.mk.injEq] at hparts
    obtain ⟨hfailed', hstuck'⟩ := format.working_of_run (s := st) (List.prefix_append bs [b])
      (by rw [hrun]; exact hfailed) (by rw [hrun]; exact hstuck)
    obtain ⟨c', hreads, hc', hat'⟩ := ih rfl hfailed' hstuck'
    have hlen : [b].length ≤ c'.freeSpace := freeSpace_pos hat' hstuck'
    obtain ⟨hcompleted, ⟨hthrown, -⟩ | ⟨c'', hok, hc'', hat''⟩⟩ := handleRead_spec hc' hat' hlen
    · exact absurd (hparts.1.trans hthrown) hfailed
    · refine ⟨c'', ?_, hc'', by rw [hparts.1]; exact hat''⟩
      rw [hparts.2, List.map_append, ← hcompleted]
      exact hreads.read hlen (Prod.ext rfl hok)

/-- **A reader that ignores all further input**: whatever comes, it posts nothing, and does not throw. -/
def Deaf (c : NIOClient) : Prop :=
  ∀ received posted c', ReadsFrom c received posted c' → posted = [] ∧
    ∀ chunk, chunk.length ≤ c'.freeSpace → ¬ Throws (c'.handleRead (.bytes chunk)).2

/-- Stuck, or before a header that is negative. -/
def Doomed : Deframer Byte → Prop
  | .stuck => True
  | .header (b :: _) => 0x80 ≤ b
  | _ => False

theorem getInt32BE_neg {b : Byte} {t : List Byte} (hb : 0x80 ≤ b) : getInt32BE (b :: t) < 0 := by
  have hhead : negativeHead (b :: t) = true := by simpa [negativeHead, UInt8.le_iff_toNat_le] using hb
  have hlt := ofBytesBE_lt (b :: t)
  rw [getInt32BE, ofSigned, if_pos hhead]
  have hcast : ((ofBytesBE (b :: t) : ℕ) : ℤ) < 256 ^ (b :: t).length := by exact_mod_cast hlt
  omega

theorem getInt32BE_of_lt {b : Byte} {t : List Byte} (hb : b < 0x80) :
    getInt32BE (b :: t) = ofBytesBE (b :: t) := by
  refine ofSigned_of_nonneg ?_
  simpa [negativeHead, UInt8.lt_iff_toNat_lt] using hb

/-- A doomed deframer delivers nothing, and stays so. -/
theorem run_doomed (h : Doomed st) (bs : List Byte) :
    Doomed (format.run st bs).1 ∧ (format.run st bs).2 = [] := by
  induction bs generalizing st with
  | nil => exact ⟨h, rfl⟩
  | cons x bs ih =>
    have hstep : Doomed (format.step st x).1 ∧ (format.step st x).2 = [] := by
      match st, h with
      | .stuck, _ => exact ⟨trivial, rfl⟩
      | .header (b :: t), hb =>
        refine ⟨?_, rfl⟩
        rw [FrameFormat.step]
        simp only
        split_ifs with hshort
        · exact hb
        · -- the header is complete, and negative
          have hneg : getInt32BE (b :: t ++ [x]) < 0 := getInt32BE_neg hb
          have hmax : ¬ ((format.max : ℤ) < format.decode (b :: t ++ [x])) := by
            have hnonneg : (0 : ℤ) ≤ format.max := Int.natCast_nonneg _
            exact not_lt.mpr (by show getInt32BE _ ≤ _; omega)
          have hle : format.decode (b :: t ++ [x]) ≤ 0 := le_of_lt hneg
          rw [FrameFormat.afterHeader, if_neg hmax, if_pos hle]
          trivial
    obtain ⟨hdoomed, hnone⟩ := ih hstep.1
    rw [FrameFormat.run, hstep.2, hnone]
    exact ⟨hdoomed, rfl⟩

theorem deaf_of_doomed (hc : c.Connected) (hat : c.IsAt c.inBuf st) (h : Doomed st) : c.Deaf := by
  intro received posted c' hreads
  obtain ⟨hposted, hc', hat'⟩ := hreads.spec hc hat
  obtain ⟨hdoomed, hnone⟩ := run_doomed h received
  refine ⟨by rw [hposted, hnone]; rfl, fun chunk hlen hthrows => ?_⟩
  obtain ⟨-, ⟨hfailed, -⟩ | ⟨c'', hok, -⟩⟩ := handleRead_spec hc' hat' hlen
  · have hdoomed' := (run_doomed hdoomed chunk).1
    rw [hfailed] at hdoomed'
    exact hdoomed'
  · obtain ⟨what, hwhat⟩ := hthrows
    rw [hok] at hwhat
    cases hwhat

/-- A header that is not positive makes a reader deaf. -/
theorem exists_deaf (hc : c.Connected) (hat : c.IsAt c.inBuf (.header [])) (size : List Byte)
    (hlen : size.length = 4) (hbad : getInt32BE size ≤ 0) :
    ∃ c', ReadsFrom c size [] c' ∧ c'.Deaf := by
  obtain ⟨bs, b, rfl⟩ : ∃ bs b, size = bs ++ [b] :=
    ⟨_, _, (List.dropLast_append_getLast (List.ne_nil_of_length_eq_add_one hlen)).symm⟩
  rw [List.length_append, List.length_singleton] at hlen
  have hrun := @FrameFormat.run_header_lt _ format [] bs (by show 0 + bs.length < 4; omega)
  obtain ⟨c', hreads, hc', hat'⟩ := exists_readsFrom hc hat hrun (by simp) (by simp)
  have hspace : [b].length ≤ c'.freeSpace := freeSpace_pos hat' (by simp)
  -- the last byte of the header
  have hmax : ¬ ((format.max : ℤ) < format.decode (bs ++ [b])) := by
    have hnonneg : (0 : ℤ) ≤ format.max := Int.natCast_nonneg _
    exact not_lt.mpr (le_trans hbad hnonneg)
  have hlast : format.run (.header bs) [b] = (.stuck, []) := by
    rw [format.run_header_eq (by show bs.length + 1 = 4; omega) (by show bs.length < 4; omega),
      FrameFormat.afterHeader, if_neg hmax, if_pos (show format.decode (bs ++ [b]) ≤ 0 from hbad)]
  obtain ⟨hcompleted, hend⟩ := handleRead_spec hc' hat' hspace
  rw [List.nil_append, hlast] at hcompleted hend
  rcases hend with ⟨hfailed, -⟩ | ⟨c'', hok, hc'', hat''⟩
  · cases hfailed
  · exact ⟨c'', hreads.read hspace (Prod.ext hcompleted hok), deaf_of_doomed hc'' hat'' trivial⟩

/-- A body can be completed. -/
theorem not_deaf_of_body (hc : c.Connected) {limit : ℕ} {got : List Byte}
    (hat : c.IsAt c.inBuf (.body limit got)) : ¬ c.Deaf := by
  intro hdeaf
  have hlt : got.length < limit := hat.2.2.2.1
  have hrun := @FrameFormat.run_body_eq _ format limit got (List.replicate (limit - got.length) 0)
    (by rw [List.length_replicate]; omega) hlt
  obtain ⟨c', hreads, -, -⟩ := exists_readsFrom hc hat hrun (by simp) (by simp)
  have hnone := (hdeaf _ _ _ hreads).1
  cases hnone

/-- Deafness goes on. -/
theorem Deaf.readsFrom (h : c.Deaf) {received : List Byte} {posted : List MiniData} {c' : NIOClient}
    (hreads : ReadsFrom c received posted c') : c'.Deaf := by
  intro received' posted' c'' hreads'
  obtain ⟨hposted, hnever⟩ := h _ _ _ (hreads.trans hreads')
  exact ⟨(List.append_eq_nil_iff.mp hposted).2, hnever⟩

/-- A header whose first byte is not that of a negative number can be completed to one that is positive. -/
theorem exists_positive {got : List Byte} (hlen : got.length < 4) (h : ¬ Doomed (.header got)) :
    ∃ fill, (got ++ fill).length = 3 ∧ 0 < getInt32BE (got ++ fill ++ [1]) := by
  refine ⟨List.replicate (3 - got.length) 0, ?_, ?_⟩
  · rw [List.length_append, List.length_replicate]
    omega
  · have hvalue : ∀ bs : List Byte, 0 < ofBytesBE (bs ++ [1]) := by
      intro bs
      rw [ofBytesBE, List.foldl_append]
      exact Nat.succ_pos _
    have hhead : negativeHead (got ++ List.replicate (3 - got.length) 0 ++ [1]) = false := by
      cases got with
      | nil => rfl
      | cons b t =>
        have hb : ¬ 0x80 ≤ b := h
        simpa [negativeHead, UInt8.le_iff_toNat_le] using hb
    rw [getInt32BE, ofSigned_of_nonneg hhead]
    exact_mod_cast hvalue _

/-- **A reader that is not doomed can still post or throw.** -/
theorem not_deaf (hc : c.Connected) (hat : c.IsAt c.inBuf st) (h : ¬ Doomed st) : ¬ c.Deaf := by
  intro hdeaf
  cases st with
  | stuck => exact h trivial
  | failed => exact hat
  | body limit got => exact not_deaf_of_body hc hat hdeaf
  | header got =>
    obtain ⟨fill, hlen, hpos⟩ := exists_positive hat.2.2 h
    have hrun := @FrameFormat.run_header_lt _ format got fill
      (by rw [← List.length_append, hlen]; decide)
    obtain ⟨c', hreads, hc', hat'⟩ := exists_readsFrom hc hat hrun (by simp) (by simp)
    have hspace : [(1 : Byte)].length ≤ c'.freeSpace := freeSpace_pos hat' (by simp)
    -- the last byte of the header
    have hlast := @FrameFormat.run_header_eq _ format (got ++ fill) [1] (by rw [hlen]; rfl) (by rw [hlen]; decide)
    obtain ⟨hcompleted, hend⟩ := handleRead_spec hc' hat' hspace
    rw [hlast] at hend
    rcases hend with ⟨-, hthrows⟩ | ⟨c'', hok, hc'', hat''⟩
    · exact (hdeaf _ _ _ hreads).2 [1] hspace hthrows
    · have hdeaf' := hdeaf.readsFrom (hreads.read hspace (Prod.ext rfl hok))
      rw [FrameFormat.afterHeader] at hat''
      split_ifs at hat'' with hbig hneg
      · exact hat''
      · exact absurd hpos (not_lt.mpr hneg)
      · exact not_deaf_of_body hc'' hat'' hdeaf'

end

/-! ## Streams from anyone -/

/-- A header that is zero or negative, as far as it has come. -/
def BadHeader (rest : List Byte) : Prop :=
  (∃ b t, rest = b :: t ∧ 0x80 ≤ b) ∨ [0, 0, 0, 0] <+: rest

/-- **No header of the stream is zero or negative**: none that comes after whole frames. -/
def Clean (stream : List Byte) : Prop :=
  ∀ ms rest, (∀ m ∈ ms, format.Deliverable m) → stream = format.frames ms ++ rest → ¬ BadHeader rest

/-- The headers that have come are in range. -/
def HeadersInRange (received : List Byte) : Prop :=
  ∀ ms size rest, (∀ m ∈ ms, m.length ≤ maxMessage) → received = format.frames ms ++ (size ++ rest) →
    size.length = 4 → 0 ≤ getInt32BE size ∧ getInt32BE size ≤ maxMessage

section

variable {received stream : List Byte}

theorem Clean.of_prefix (h : Clean stream) (hpre : received <+: stream) : Clean received := by
  obtain ⟨t, rfl⟩ := hpre
  rintro ms rest hms rfl hbad
  refine h ms (rest ++ t) hms (List.append_assoc _ _ _) ?_
  rcases hbad with ⟨b, u, rfl, hb⟩ | hzero
  · exact .inl ⟨b, u ++ t, rfl, hb⟩
  · exact .inr (hzero.trans (List.prefix_append _ _))

theorem Clean.not_bad (h : Clean stream) : ¬ BadHeader stream :=
  h [] stream (by simp) rfl

/-- Behind a frame. -/
theorem Clean.of_frame {m : List Byte} (hm : format.Deliverable m) (h : Clean (format.frame m ++ stream)) :
    Clean stream := by
  rintro ms rest hms rfl
  refine h (m :: ms) rest ?_ ?_
  · intro m' hm'
    rcases List.mem_cons.mp hm' with rfl | hm'
    · exact hm
    · exact hms m' hm'
  · rw [FrameFormat.frames_cons, List.append_assoc]

/-- Four bytes of a clean stream are a positive length, and the header of a message of this length. -/
theorem Clean.size {size rest : List Byte} (h : Clean (size ++ rest)) (hlen : size.length = 4) :
    0 < getInt32BE size ∧ MiniData.writeInt32BE (getInt32BE size).toNat = size := by
  obtain ⟨a, b, c, d, rfl⟩ : ∃ a b c d, size = [a, b, c, d] := by
    match size, hlen with
    | [a, b, c, d], _ => exact ⟨a, b, c, d, rfl⟩
  have ha : a < 0x80 := by
    by_contra hge
    exact h.not_bad (.inl ⟨a, _, rfl, UInt8.not_lt.mp hge⟩)
  have hvalue : ofBytesBE [a, b, c, d] = a.toNat * 2 ^ 24 + b.toNat * 2 ^ 16 + c.toNat * 2 ^ 8 + d.toNat := by
    simp only [ofBytesBE, List.foldl_cons, List.foldl_nil]
    omega
  rw [getInt32BE_of_lt ha, hvalue, Int.toNat_natCast]
  have hbounds := And.intro (And.intro a.toNat_lt b.toNat_lt) (And.intro c.toNat_lt d.toNat_lt)
  constructor
  · by_contra hle
    have hzero : ∀ x : Byte, x.toNat = 0 → x = 0 := fun x hx => UInt8.toNat_inj.mp hx
    refine h.not_bad (.inr ?_)
    rw [hzero a (by omega), hzero b (by omega), hzero c (by omega), hzero d (by omega)]
    exact List.prefix_append _ _
  · simp only [MiniData.writeInt32BE, List.cons.injEq, and_true, ← UInt8.toNat_inj, UInt8.toNat_ofNat']
    omega

/-- Behind the four bytes of a clean stream: a header that is too big, or a body. -/
theorem Clean.run_size {size rest : List Byte} (h : Clean (size ++ rest)) (hlen : size.length = 4) :
    format.run (.header []) size =
      (if (maxMessage : ℤ) < getInt32BE size then .failed else .body (getInt32BE size).toNat [], []) := by
  have hpos : ¬ format.decode size ≤ 0 := not_le.mpr (h.size hlen).1
  rw [format.run_header_eq (by rw [hlen]; rfl) (by decide), List.nil_append, FrameFormat.afterHeader, if_neg hpos]
  rfl

/-- **A clean stream fails, or leaves a reader that is not doomed.** -/
theorem Clean.state (h : Clean stream) : (format.run (.header []) stream).1 = .failed ∨
    ¬ Doomed (format.run (.header []) stream).1 := by
  -- by induction on the length, one frame at a time
  induction hn : stream.length using Nat.strong_induction_on generalizing stream with
  | _ n ih =>
    by_cases hshort : stream.length < 4
    · rw [format.run_header_lt (by rw [List.length_nil, Nat.zero_add]; exact hshort)]
      refine .inr fun hdoomed => h.not_bad ?_
      match stream, hdoomed with
      | b :: t, hb => exact .inl ⟨b, t, rfl, hb⟩
    obtain ⟨size, rest, rfl, hlen⟩ : ∃ size rest, stream = size ++ rest ∧ size.length = 4 :=
      ⟨stream.take 4, stream.drop 4, (List.take_append_drop 4 stream).symm, by rw [List.length_take]; omega⟩
    have hsize := h.size hlen
    rw [FrameFormat.run_append, h.run_size hlen]
    split_ifs with hbig
    · exact .inl (by rw [FrameFormat.run_failed])
    by_cases hcut : rest.length < (getInt32BE size).toNat
    · -- the body is not complete
      rw [format.run_body_lt (by simpa using hcut)]
      exact .inr id
    · obtain ⟨body, rest', rfl, hbody⟩ : ∃ body rest', rest = body ++ rest' ∧
          body.length = (getInt32BE size).toNat :=
        ⟨rest.take (getInt32BE size).toNat, rest.drop (getInt32BE size).toNat,
          (List.take_append_drop _ rest).symm, by rw [List.length_take]; omega⟩
      have hdeliverable : format.Deliverable body := by
        refine ⟨?_, ?_⟩
        · rintro rfl
          rw [List.length_nil] at hbody
          omega
        · show body.length ≤ maxMessage
          omega
      have hframe : size ++ (body ++ rest') = format.frame body ++ rest' := by
        rw [FrameFormat.frame, hbody, ← List.append_assoc]
        exact congrArg (· ++ body ++ rest') hsize.2.symm
      rw [hframe] at h
      rw [FrameFormat.run_append, format.run_body_eq (by simpa using hbody) (by simpa using hsize.1)]
      refine ih rest'.length ?_ (h.of_frame hdeliverable) rfl
      simp only [List.length_append] at hn
      omega

/-- The headers of a clean stream are in range, up to one that is too big. -/
theorem Clean.headersInRange (h : Clean stream) (hworks : (format.run (.header []) stream).1 ≠ .failed) :
    HeadersInRange stream := by
  intro ms size rest hms hstream hlen
  induction ms generalizing stream with
  | nil =>
    obtain rfl : stream = size ++ rest := hstream
    refine ⟨le_of_lt (h.size hlen).1, not_lt.mp fun hbig => hworks ?_⟩
    rw [FrameFormat.run_append, h.run_size hlen, if_pos hbig, FrameFormat.run_failed]
  | cons m ms ih =>
    rw [FrameFormat.frames_cons, List.append_assoc] at hstream
    subst hstream
    by_cases hempty : m = []
    · -- the header of an empty message is zero
      subst hempty
      exact absurd (.inr (List.prefix_append _ _)) h.not_bad
    have hdeliverable : format.Deliverable m := ⟨hempty, hms m List.mem_cons_self⟩
    refine ih (h.of_frame hdeliverable) ?_ (fun m' hm' => hms m' (List.mem_cons_of_mem m hm')) rfl
    rwa [FrameFormat.run_append, format.run_frame hdeliverable] at hworks

/-- **Which streams a reader survives**: those without a header that is zero or negative. There every
header out of range makes `handleRead` throw, and the reader never gets deaf. -/
theorem survives_iff (stream : List Byte) :
    (∀ received posted c, received <+: stream → ReadsFrom connected received posted c →
      HeadersInRange received ∧ ¬ c.Deaf) ↔ Clean stream := by
  have hconnected := connected_connected
  have hat := isAt_connected
  constructor
  · rintro h ms rest hms rfl hbad
    have hwhole := format.run_frames hms
    rcases hbad with ⟨b, t, rfl, hb⟩ | ⟨t, rfl⟩
    · have hrun : format.run (.header []) (format.frames ms ++ [b]) = (.header [b], ms) := by
        have hlt : ([] : List Byte).length + [b].length < format.size := by
          show 1 < 4
          decide
        rw [FrameFormat.run_append, hwhole, format.run_header_lt hlt]
        simp
      obtain ⟨c, hreads, hc, hat'⟩ := exists_readsFrom hconnected hat hrun (by simp) (by simp)
      exact (h _ _ c (by simp) hreads).2 (deaf_of_doomed hc hat' hb)
    · obtain ⟨c, hreads, hc, hat'⟩ := exists_readsFrom hconnected hat hwhole (by simp) (by simp)
      obtain ⟨c', hreads', hdeaf⟩ := exists_deaf hc hat' [0, 0, 0, 0] rfl (by decide)
      refine (h _ _ c' ?_ (hreads.trans hreads')).2 hdeaf
      rw [← List.append_assoc]
      exact List.prefix_append _ _
  · intro hclean received posted c hpre hreads
    obtain ⟨-, hc, hat'⟩ := hreads.spec hconnected hat
    have hclean' := hclean.of_prefix hpre
    have hworks : (format.run (.header []) received).1 ≠ .failed := by
      intro hfailed
      rw [hfailed] at hat'
      exact hat'
    refine ⟨hclean'.headersInRange hworks, not_deaf hc hat' ?_⟩
    exact hclean'.state.resolve_left hworks

end

end NIOClient

end Minima
