import Mathlib

/-! # Messages in frames

A frame is a header with the length of a message, and the message. A deframer takes a stream apart
symbol by symbol; how the symbols are grouped on their way makes no difference. This deframer gets stuck
on a header that is not positive, so an empty message is not one it can deliver.

* **`FrameFormat`** — headers of a fixed size that can be decoded.
* **`FrameFormat.run`** — the deframer.
* **`FrameFormat.run_frames`** — it delivers messages that are not empty and not too long.
* **`FrameFormat.prefix_of_run`** — of a part of a stream it delivers a part of the messages. -/

namespace Minima

/-- **A format of frames**: headers of a fixed size for lengths up to a maximum. -/
structure FrameFormat (β : Type*) where
  size : ℕ
  max : ℕ
  encode : ℕ → List β
  decode : List β → ℤ
  size_pos : 0 < size
  length_encode : ∀ n, (encode n).length = size
  decode_encode : ∀ n ≤ max, decode (encode n) = n

/-- What a deframer is at: so much of a header, so much of the body of a given length, a header that is
not positive, or one that is too big. -/
inductive Deframer (β : Type*) where
  | header (got : List β)
  | body (limit : ℕ) (got : List β)
  | stuck
  | failed

namespace FrameFormat

variable {β : Type*} (F : FrameFormat β)

/-- A message in its frame. -/
def frame (m : List β) : List β := F.encode m.length ++ m

/-- Messages in their frames. -/
def frames (ms : List (List β)) : List β := ms.flatMap F.frame

@[simp] theorem frames_nil : F.frames [] = [] := rfl

@[simp] theorem frames_cons (m : List β) (ms : List (List β)) : F.frames (m :: ms) = F.frame m ++ F.frames ms :=
  rfl

@[simp] theorem frames_append (ms ns : List (List β)) : F.frames (ms ++ ns) = F.frames ms ++ F.frames ns :=
  List.flatMap_append

/-- What follows a whole header. -/
def afterHeader (got : List β) : Deframer β :=
  if (F.max : ℤ) < F.decode got then .failed
  else if F.decode got ≤ 0 then .stuck
  else .body (F.decode got).toNat []

/-- One symbol: the deframer after it, and the message it completes. -/
def step : Deframer β → β → Deframer β × List (List β)
  | .header got, b => (if (got ++ [b]).length < F.size then .header (got ++ [b]) else F.afterHeader (got ++ [b]), [])
  | .body limit got, b =>
    if (got ++ [b]).length < limit then (.body limit (got ++ [b]), []) else (.header [], [got ++ [b]])
  | .stuck, _ => (.stuck, [])
  | .failed, _ => (.failed, [])

/-- **The deframer** on a stream. -/
def run : Deframer β → List β → Deframer β × List (List β)
  | s, [] => (s, [])
  | s, b :: bs => ((run (F.step s b).1 bs).1, (F.step s b).2 ++ (run (F.step s b).1 bs).2)

@[simp] theorem run_nil (s : Deframer β) : F.run s [] = (s, []) := rfl

/-- **How a stream is split makes no difference.** -/
theorem run_append (s : Deframer β) (bs cs : List β) :
    F.run s (bs ++ cs) = ((F.run (F.run s bs).1 cs).1, (F.run s bs).2 ++ (F.run (F.run s bs).1 cs).2) := by
  induction bs generalizing s with
  | nil => rfl
  | cons b bs ih => rw [List.cons_append, run, ih, run, List.append_assoc]

@[simp] theorem run_stuck (bs : List β) : F.run .stuck bs = (.stuck, []) := by
  induction bs with
  | nil => rfl
  | cons b bs ih =>
    rw [run, step, ih]
    rfl

@[simp] theorem run_failed (bs : List β) : F.run .failed bs = (.failed, []) := by
  induction bs with
  | nil => rfl
  | cons b bs ih =>
    rw [run, step, ih]
    rfl

/-- A part of a header. -/
theorem run_header_lt {got bs : List β} (h : got.length + bs.length < F.size) :
    F.run (.header got) bs = (.header (got ++ bs), []) := by
  induction bs generalizing got with
  | nil => rw [List.append_nil, run_nil]
  | cons b bs ih =>
    rw [List.length_cons] at h
    have hlt : (got ++ [b]).length < F.size := by
      rw [List.length_append, List.length_singleton]
      omega
    rw [run, step, if_pos hlt, ih (by rw [List.length_append, List.length_singleton]; omega),
      List.append_assoc, List.singleton_append, List.append_nil]

/-- The end of a header. -/
theorem run_header_eq {got bs : List β} (h : got.length + bs.length = F.size) (hgot : got.length < F.size) :
    F.run (.header got) bs = (F.afterHeader (got ++ bs), []) := by
  induction bs using List.reverseRecOn with
  | nil =>
    rw [List.length_nil] at h
    omega
  | append_singleton bs b ih =>
    rw [List.length_append, List.length_singleton] at h
    have hfull : ¬ (got ++ bs ++ [b]).length < F.size := by
      rw [List.length_append, List.length_append, List.length_singleton]
      omega
    rw [run_append, F.run_header_lt (by omega), run, step, if_neg hfull, run_nil, List.append_assoc]
    rfl

/-- A part of a body. -/
theorem run_body_lt {limit : ℕ} {got bs : List β} (h : got.length + bs.length < limit) :
    F.run (.body limit got) bs = (.body limit (got ++ bs), []) := by
  induction bs generalizing got with
  | nil => rw [List.append_nil, run_nil]
  | cons b bs ih =>
    rw [List.length_cons] at h
    have hlt : (got ++ [b]).length < limit := by
      rw [List.length_append, List.length_singleton]
      omega
    rw [run, step, if_pos hlt, ih (by rw [List.length_append, List.length_singleton]; omega),
      List.append_assoc, List.singleton_append, List.append_nil]

/-- The end of a body. -/
theorem run_body_eq {limit : ℕ} {got bs : List β} (h : got.length + bs.length = limit)
    (hgot : got.length < limit) : F.run (.body limit got) bs = (.header [], [got ++ bs]) := by
  induction bs using List.reverseRecOn with
  | nil =>
    rw [List.length_nil] at h
    omega
  | append_singleton bs b ih =>
    rw [List.length_append, List.length_singleton] at h
    have hfull : ¬ (got ++ bs ++ [b]).length < limit := by
      rw [List.length_append, List.length_append, List.length_singleton]
      omega
    rw [run_append, F.run_body_lt (by omega), run, step, if_neg hfull, run_nil, List.append_assoc]
    rfl

/-- What can be delivered: a message that is not empty and not too long. -/
def Deliverable (m : List β) : Prop := m ≠ [] ∧ m.length ≤ F.max

theorem run_frame {m : List β} (h : F.Deliverable m) : F.run (.header []) (F.frame m) = (.header [], [m]) := by
  have hpos : 0 < m.length := List.length_pos_iff.mpr h.1
  have hafter : F.afterHeader (F.encode m.length) = .body m.length [] := by
    rw [afterHeader, F.decode_encode _ h.2, if_neg (by exact_mod_cast not_lt.mpr h.2), if_neg (by omega),
      Int.toNat_natCast]
  have hheader : F.run (.header []) (F.encode m.length) = (.body m.length [], []) := by
    rw [F.run_header_eq (by simp [F.length_encode]) (by simpa using F.size_pos), List.nil_append, hafter]
  have hbody : F.run (.body m.length []) m = (.header [], [m]) := F.run_body_eq (by simp) (by simpa using hpos)
  rw [frame, run_append, hheader, hbody, List.nil_append]

/-- **Whole frames deliver their messages.** -/
theorem run_frames {ms : List (List β)} (h : ∀ m ∈ ms, F.Deliverable m) :
    F.run (.header []) (F.frames ms) = (.header [], ms) := by
  induction ms with
  | nil => rfl
  | cons m ms ih =>
    rw [frames_cons, run_append, F.run_frame (h m List.mem_cons_self),
      ih fun m' hm => h m' (List.mem_cons_of_mem m hm)]
    rfl

/-- **Of a part of a stream the deframer delivers a part of the messages.** -/
theorem prefix_of_run {s : Deframer β} {bs cs : List β} (h : bs <+: cs) : (F.run s bs).2 <+: (F.run s cs).2 := by
  obtain ⟨ds, rfl⟩ := h
  rw [run_append]
  exact List.prefix_append _ _

/-- A stream that does not fail or get stuck has no part that does. -/
theorem working_of_run {s : Deframer β} {bs cs : List β} (h : bs <+: cs) (hfailed : (F.run s cs).1 ≠ .failed)
    (hstuck : (F.run s cs).1 ≠ .stuck) : (F.run s bs).1 ≠ .failed ∧ (F.run s bs).1 ≠ .stuck := by
  obtain ⟨ds, rfl⟩ := h
  rw [run_append] at hfailed hstuck
  constructor
  · intro hbs
    rw [hbs, run_failed] at hfailed
    exact hfailed rfl
  · intro hbs
    rw [hbs, run_stuck] at hstuck
    exact hstuck rfl

end FrameFormat

end Minima
