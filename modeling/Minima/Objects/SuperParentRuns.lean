import Minima.Lib.BigEndian
import Minima.Objects.Codec

/-! # The run-length loops of the super parents

`TxHeader` writes its super parents as runs: the writer counts equal neighbours and flushes the last
run on its own, the reader fills the levels of a vector, run after run. Here are both loops as they
stand, over their own variables; the vector is written under a bounds check that the source does
not have, so that a write beyond the last level would show as undefined behaviour.

* **`TxHeader.writeLoop_eq`** — the writer's loop writes the runs of the list.
* **`TxHeader.readLoop_eq`** — the reader's loop reads what the list decoder `readRuns` reads.
* **`TxHeader.superParents_runs`** — round trip, and every stream fills all levels or is rejected. -/

namespace Minima

open TwosComplement

/-! ## Hashes in a stream -/

namespace Reader

theorem map_of_ok {α β : Type} {r : Reader α} {s rest : List Byte} {x : α} (h : r s = (.ok x, rest))
    (f : α → β) : (f <$> r) s = (.ok (f x), rest) :=
  bind_of_ok h fun x => pure (f x)

theorem map_of_error {α β : Type} {r : Reader α} {s rest : List Byte} {e : Fault}
    (h : r s = (.error e, rest)) (f : α → β) : (f <$> r) s = (.error e, rest) :=
  bind_of_error h fun x => pure (f x)

theorem throws_bind {α β : Type} {r : Reader α} {s : List Byte} (h : Throws (r s).1)
    (f : α → Reader β) : Throws ((r >>= f) s).1 := by
  obtain ⟨what, hwhat⟩ := h
  rcases hrs : r s with ⟨_ | _, s'⟩
  · rw [hrs] at hwhat
    rw [bind_of_error hrs]
    exact ⟨what, congrArg Except.error (Except.error.inj hwhat)⟩
  · rw [hrs] at hwhat
    cases hwhat

/-- A reader that throws or makes a value, and nothing else. -/
def Proper {α : Type} (r : Reader α) : Prop :=
  ∀ s, Throws (r s).1 ∨ ∃ x rest, r s = (.ok x, rest)

namespace Proper

theorem pure {α : Type} (x : α) : Proper (Pure.pure x : Reader α) := fun s => .inr ⟨x, s, rfl⟩

theorem throwing {α : Type} (what : String) : Proper (Reader.throwing what : Reader α) :=
  fun _ => .inl ⟨what, rfl⟩

theorem bind {α β : Type} {r : Reader α} {f : α → Reader β} (hr : Proper r) (hf : ∀ x, Proper (f x)) :
    Proper (r >>= f) := by
  intro s
  rcases hr s with hthrows | ⟨x, rest, hx⟩
  · exact .inl (throws_bind hthrows f)
  · rw [bind_of_ok hx]
    exact hf x rest

theorem guard {α : Type} {p : Prop} [Decidable p] {what : String} {r : Reader α} (hr : Proper r) :
    Proper (if p then Reader.throwing what else r) := by
  split_ifs
  · exact throwing what
  · exact hr

theorem readByte : Proper Reader.readByte := by
  intro s
  cases s with
  | nil => exact .inl ⟨_, rfl⟩
  | cons b s => exact .inr ⟨b, s, rfl⟩

theorem readFully (n : ℕ) : Proper (Reader.readFully n) := by
  intro s
  unfold Reader.readFully
  split_ifs
  · exact .inl ⟨_, rfl⟩
  · exact .inr ⟨_, _, rfl⟩

end Proper

end Reader

namespace MiniData

theorem proper_readHashFromStream : Reader.Proper readHashFromStream := by
  refine .bind (.bind (.readFully 4) fun bs => .pure _) fun len => .guard (.guard ?_)
  exact .bind (.readFully _) fun bs => .pure _

/-- **What a hash was read from** is its own encoding. -/
theorem readHashFromStream_eq_ok {s rest : List Byte} {d : MiniData}
    (h : readHashFromStream s = (.ok d, rest)) :
    d.getLength ≤ maxHashLength ∧ s = d.writeDataStream ++ rest := by
  obtain ⟨len, s', hread, h⟩ := Reader.bind_eq_ok.mp h
  obtain ⟨hmax, h⟩ := Reader.guard_eq_ok.mp h
  obtain ⟨hneg, h⟩ := Reader.guard_eq_ok.mp h
  obtain ⟨head, s1, hhead, hlen⟩ := Reader.bind_eq_ok.mp hread
  obtain ⟨bs, s2, hbs, hret⟩ := Reader.bind_eq_ok.mp h
  cases hlen
  cases hret
  obtain ⟨hheadlen, rfl⟩ := Reader.readFully_eq_ok hhead
  obtain ⟨hbslen, rfl⟩ := Reader.readFully_eq_ok hbs
  -- a length that is not negative has a clear top bit
  have hvalue : ofSigned head = ofBytesBE head := by
    refine ofSigned_of_nonneg ?_
    rw [← Bool.not_eq_true]
    intro hsign
    have hlt : (ofBytesBE head : ℤ) < (256 : ℤ) ^ head.length := by
      exact_mod_cast ofBytesBE_lt head
    rw [ofSigned, if_pos hsign] at hneg
    omega
  have hlength : bs.length = ofBytesBE head := by rw [hbslen, hvalue, Int.toNat_natCast]
  have hwritten : head = writeInt32BE bs.length := by
    rw [writeInt32BE_eq, hlength, ← hheadlen, BigEndian.bytesBE_ofBytesBE]
  refine ⟨?_, ?_⟩
  · show bs.length ≤ maxHashLength
    rw [hvalue] at hmax
    omega
  · rw [writeDataStream, ← hwritten, List.append_assoc]

end MiniData

namespace TxHeader

/-! ## The writer -/

/-- The variables of the writer's loop, with what it has written. -/
structure Writing where
  have_parent : Bool
  sparent : MiniData
  counter : ℕ
  out : List Byte

/-- One pass of the writer's loop: super parent `curr` of level `i`. -/
def writeLevel (levels i : ℕ) (curr : MiniData) (w : Writing) : Result Writing := do
  let w ←
    if !w.have_parent then pure { w with sparent := curr, counter := 1, have_parent := true }
    else if w.sparent.isEqual curr then pure { w with counter := w.counter + 1 }
    else do
      let run ← writeRun (w.counter, w.sparent)
      pure { w with out := w.out ++ run, sparent := curr, counter := 1 }
  if i = levels - 1 ∧ w.have_parent then do
    let run ← writeRun (w.counter, w.sparent)
    pure { w with out := w.out ++ run }
  else pure w

/-- The passes from level `i` on, with the super parents of these levels. -/
def writeLoop (levels : ℕ) : ℕ → List MiniData → Writing → Result Writing
  | _, [], w => pure w
  | i, curr :: rest, w => do
    let w ← writeLevel levels i curr w
    writeLoop levels (i + 1) rest w

/-- The super parents as `writeDataStream` writes them. -/
def writeSuperParents (supers : Fin cascadeLevels → MiniData) : Result (List Byte) := do
  let w ← writeLoop cascadeLevels 0 (List.ofFn supers) ⟨false, ⟨[]⟩, 0, []⟩
  return w.out

/-- The runs of a list behind a run that is still open. -/
def runsFrom (counter : ℕ) (sparent : MiniData) : List MiniData → List (ℕ × MiniData)
  | [] => [(counter, sparent)]
  | curr :: rest =>
    if sparent.isEqual curr then runsFrom (counter + 1) sparent rest
    else (counter, sparent) :: runsFrom 1 curr rest

/-- The first run of a list is of its first entry. -/
theorem runs_cons (d : MiniData) (ds : List MiniData) : ∃ n rs, runs (d :: ds) = (n + 1, d) :: rs := by
  rw [runs]
  split
  · exact ⟨0, [], rfl⟩
  · next count sparent rest _ =>
    split_ifs with h
    · rw [MiniData.isEqual_iff] at h
      exact ⟨count, rest, by rw [h]⟩
    · exact ⟨0, (count, sparent) :: rest, rfl⟩

/-- Copies of an entry in front of another one make a run of their own. -/
theorem runs_replicate_cons {sparent curr : MiniData} (h : sparent ≠ curr) (counter : ℕ)
    (ds : List MiniData) :
    runs (List.replicate (counter + 1) sparent ++ curr :: ds) =
      (counter + 1, sparent) :: runs (curr :: ds) := by
  induction counter with
  | zero =>
    obtain ⟨n, rs, hruns⟩ := runs_cons curr ds
    have hne : ¬ sparent.isEqual curr = true := by rwa [MiniData.isEqual_iff]
    rw [List.replicate_one, List.singleton_append, runs, hruns]
    exact if_neg hne
  | succ counter ih =>
    have heq : sparent.isEqual sparent = true := (MiniData.isEqual_iff _ _).mpr rfl
    rw [List.replicate_succ, List.cons_append, runs, ih]
    exact if_pos heq

/-- **An open run** stands for its entries in front of the list. -/
theorem runs_replicate_append (counter : ℕ) (sparent : MiniData) (ds : List MiniData) :
    runs (List.replicate (counter + 1) sparent ++ ds) = runsFrom (counter + 1) sparent ds := by
  induction ds generalizing counter sparent with
  | nil =>
    rw [List.append_nil, runsFrom]
    induction counter with
    | zero => rfl
    | succ counter ih =>
      have heq : sparent.isEqual sparent = true := (MiniData.isEqual_iff _ _).mpr rfl
      rw [List.replicate_succ, runs, ih]
      exact if_pos heq
  | cons curr rest ih =>
    rw [runsFrom]
    by_cases h : sparent = curr
    · subst h
      have heq : sparent.isEqual sparent = true := (MiniData.isEqual_iff _ _).mpr rfl
      have hmove : List.replicate (counter + 1) sparent ++ sparent :: rest =
          List.replicate (counter + 2) sparent ++ rest := by
        rw [List.replicate_succ' (n := counter + 1), List.append_assoc, List.singleton_append]
      rw [if_pos heq, hmove, ih]
    · have hne : ¬ sparent.isEqual curr = true := by rwa [MiniData.isEqual_iff]
      have hcurr := ih 0 curr
      rw [List.replicate_one, List.singleton_append] at hcurr
      rw [if_neg hne, runs_replicate_cons h, hcurr]

/-- The writer's loop behind an open run: it writes this run and those that follow. The last run is
flushed in the pass of the last level, so there has to be one. -/
theorem writeLoop_eq {levels i counter : ℕ} {sparent : MiniData} {ds : List MiniData}
    (hds : ds ≠ []) (hi : i + ds.length = levels) (out : List Byte) :
    Writing.out <$> writeLoop levels i ds ⟨true, sparent, counter, out⟩ =
      (out ++ ·) <$> Coin.writeAll writeRun (runsFrom counter sparent ds) := by
  induction ds generalizing i counter sparent out with
  | nil => exact absurd rfl hds
  | cons curr rest ih =>
    rw [List.length_cons] at hi
    rw [writeLoop, runsFrom]
    by_cases hrest : rest = []
    · subst hrest
      have hlast : i = levels - 1 := by rw [List.length_nil] at hi; omega
      by_cases hsame : sparent.isEqual curr = true
      · cases hrun : writeRun (counter + 1, sparent) <;>
          simp [writeLevel, writeLoop, runsFrom, Coin.writeAll, Crypto.concatAll, hsame, ← hlast, hrun, bind,
            Except.bind, pure, Except.pure, Functor.map, Except.map]
      · cases hrun : writeRun (counter, sparent) <;> cases hcurr : writeRun (1, curr) <;>
          simp [writeLevel, writeLoop, runsFrom, Coin.writeAll, Crypto.concatAll, hsame, ← hlast, hrun, hcurr,
            bind, Except.bind, pure, Except.pure, Functor.map, Except.map]
    · -- the pass of a level before the last one leaves a run open
      have hlast : ¬ i = levels - 1 := by
        have hpos := List.length_pos_iff.mpr hrest
        omega
      by_cases hsame : sparent.isEqual curr = true
      · have hstep : writeLevel levels i curr ⟨true, sparent, counter, out⟩ =
            .ok ⟨true, sparent, counter + 1, out⟩ := by
          simp [writeLevel, hsame, hlast, bind, Except.bind, pure, Except.pure]
        rw [if_pos hsame, hstep]
        exact ih hrest (by omega) out
      · rw [if_neg hsame]
        cases hrun : writeRun (counter, sparent) with
        | error e =>
          simp [writeLevel, Coin.writeAll, Crypto.concatAll, hsame, hrun, bind, Except.bind, Functor.map,
            Except.map]
        | ok run =>
          have hstep : writeLevel levels i curr ⟨true, sparent, counter, out⟩ =
              .ok ⟨true, curr, 1, out ++ run⟩ := by
            simp [writeLevel, hsame, hlast, hrun, bind, Except.bind, pure, Except.pure]
          have hmore := @ih (i + 1) 1 curr hrest (by omega) (out ++ run)
          rw [hstep]
          refine hmore.trans ?_
          rw [Coin.writeAll, Coin.writeAll, List.map_cons, Crypto.concatAll, hrun]
          cases Crypto.concatAll ((runsFrom 1 curr rest).map writeRun) <;>
            simp [bind, Except.bind, pure, Except.pure, Functor.map, Except.map]

/-- A run of a hash that is too long is not written. -/
theorem length_of_writeAll {rs : List (ℕ × MiniData)} {bytes : List Byte}
    (h : Coin.writeAll writeRun rs = .ok bytes) :
    ∀ run ∈ rs, run.2.getLength ≤ MiniData.maxHashLength := by
  induction rs generalizing bytes with
  | nil => simp
  | cons run rs ih =>
    rw [Coin.writeAll, List.map_cons, Crypto.concatAll] at h
    obtain ⟨b, hrun, h⟩ := Result.bind_eq_ok.mp h
    obtain ⟨bs, hrest, -⟩ := Result.bind_eq_ok.mp h
    obtain ⟨sparent, hsparent, -⟩ := Result.bind_eq_ok.mp hrun
    refine List.forall_mem_cons.mpr ⟨?_, ih hrest⟩
    by_contra hlong
    have hthrows : run.2.writeHashToStream = throwException _ := if_pos (not_le.mp hlong)
    rw [hthrows] at hsparent
    exact throwException_ne_ok _ _ hsparent

/-- **The writer writes the runs** of the super parents. -/
theorem writeSuperParents_eq (supers : Fin cascadeLevels → MiniData) :
    writeSuperParents supers = Coin.writeAll writeRun (runs (List.ofFn supers)) := by
  have hlen : (List.ofFn supers).length = cascadeLevels := List.length_ofFn
  cases hsupers : List.ofFn supers with
  | nil =>
    rw [hsupers] at hlen
    cases hlen
  | cons d ds =>
    rw [hsupers, List.length_cons] at hlen
    have hds : ds ≠ [] := by
      rintro rfl
      simp [cascadeLevels] at hlen
    have hstep : writeLevel cascadeLevels 0 d ⟨false, ⟨[]⟩, 0, []⟩ = .ok ⟨true, d, 1, []⟩ := by
      simp [writeLevel, cascadeLevels, bind, Except.bind, pure, Except.pure]
    have hruns := runs_replicate_append 0 d ds
    rw [List.replicate_one, List.singleton_append] at hruns
    have hloop := @writeLoop_eq cascadeLevels 1 1 d ds hds (by omega) []
    rw [writeSuperParents, hsupers, writeLoop, hstep, hruns]
    refine hloop.trans ?_
    simp only [List.nil_append]
    exact id_map _

/-! ## The reader -/

/-- The `for` loop of a run: `sup` goes to the next levels of the vector. -/
def fillRun (levels : ℕ) (sup : MiniData) : ℕ → ℕ × List MiniData → Result (ℕ × List MiniData)
  | 0, st => .ok st
  | count + 1, (tot, supers) =>
    if levels ≤ tot then throwException "SuperParents overflow during RLE decode"
    else if supers.length ≤ tot then undefinedBehaviour "mSuperParents out of range"
    else fillRun levels sup count (tot + 1, supers.set tot sup)

/-- One pass of the `while` loop: a run is read and goes to the vector. -/
def readRun (levels : ℕ) (st : ℕ × List MiniData) : Reader (ℕ × List MiniData) := do
  let len ← Reader.readByte
  let sup ← MiniData.readHashFromStream
  Reader.lift (fillRun levels sup len.toNat st)

/-- The `while` loop; nothing is returned when the fuel runs out. -/
def readLoop (levels : ℕ) : ℕ → ℕ × List MiniData → Reader (Option (List MiniData))
  | 0, (tot, supers) => if tot < levels then pure none else pure (some supers)
  | fuel + 1, (tot, supers) =>
    if tot < levels then do
      let st ← readRun levels (tot, supers)
      readLoop levels fuel st
    else pure (some supers)

/-- The super parents as `readDataStream` reads them. -/
def decodeSuperParents (fuel : ℕ) : Reader (Option (List MiniData)) :=
  readLoop cascadeLevels fuel (0, List.replicate cascadeLevels ⟨[]⟩)

/-- **A run** fills the levels behind those that are filled, unless there are too few of them. -/
theorem fillRun_eq (sup : MiniData) (count : ℕ) (done todo : List MiniData) :
    fillRun (done.length + todo.length) sup count (done.length, done ++ todo) =
      if count ≤ todo.length then
        .ok (done.length + count, done ++ List.replicate count sup ++ todo.drop count)
      else throwException "SuperParents overflow during RLE decode" := by
  induction count generalizing done todo with
  | zero => simp [fillRun]
  | succ count ih =>
    cases todo with
    | nil => simp [fillRun]
    | cons d todo =>
      have hset : (done ++ d :: todo).set done.length sup = (done ++ [sup]) ++ todo := by simp
      have hmore := ih (done ++ [sup]) todo
      rw [List.length_append, List.length_singleton] at hmore
      rw [fillRun, if_neg (by simp), if_neg (by simp), hset, List.length_cons,
        show done.length + (todo.length + 1) = done.length + 1 + todo.length by omega, hmore]
      by_cases hcount : count ≤ todo.length
      · rw [if_pos hcount, if_pos (by omega), List.drop_succ_cons, List.replicate_succ]
        simp [Nat.add_assoc, Nat.add_comm 1]
      · rw [if_neg hcount, if_neg (by omega)]

/-- A pass that does not throw takes the bytes of its run, and fills its levels. -/
theorem readRun_cases (done todo : List MiniData) (s : List Byte) :
    Throws (readRun (done.length + todo.length) (done.length, done ++ todo) s).1 ∨
      ∃ count sup rest, count < 256 ∧ count ≤ todo.length ∧ sup.getLength ≤ MiniData.maxHashLength ∧
        s = UInt8.ofNat count :: (sup.writeDataStream ++ rest) ∧
        readRun (done.length + todo.length) (done.length, done ++ todo) s =
          (.ok (done.length + count, done ++ List.replicate count sup ++ todo.drop count), rest) := by
  have hproper : Reader.Proper
      (readRun (done.length + todo.length) (done.length, done ++ todo)) := by
    refine .bind .readByte fun len => .bind MiniData.proper_readHashFromStream fun sup s => ?_
    rw [fillRun_eq]
    split_ifs
    · exact .inr ⟨_, s, rfl⟩
    · exact .inl ⟨_, rfl⟩
  refine (hproper s).imp_right fun ⟨st, rest, hread⟩ => ?_
  obtain ⟨len, s1, hlen, h⟩ := Reader.bind_eq_ok.mp hread
  obtain ⟨sup, s2, hsup, hfill⟩ := Reader.bind_eq_ok.mp h
  obtain ⟨hlength, rfl⟩ := MiniData.readHashFromStream_eq_ok hsup
  rw [fillRun_eq] at hfill
  split_ifs at hfill with hcount
  · cases hfill
    exact ⟨len.toNat, sup, rest, len.toNat_lt, hcount, hlength, by
      rw [Reader.readByte_eq_ok hlen, UInt8.ofNat_toNat], hread⟩
  · cases hfill

/-- **The reader's loop**, with enough fuel for its runs of at least five bytes each: it throws, or it
takes the encodings of runs that fill the levels to come, and no byte more. -/
theorem readLoop_cases (fuel : ℕ) (done todo : List MiniData) (s : List Byte)
    (hfuel : s.length < 5 * fuel) :
    Throws (readLoop (done.length + todo.length) fuel (done.length, done ++ todo) s).1 ∨
      ∃ rs bytes rest, s = bytes ++ rest ∧ (∀ run ∈ rs, run.1 < 256) ∧
        Coin.writeAll writeRun rs = .ok bytes ∧ 5 * rs.length ≤ bytes.length ∧
        (expand rs).length = todo.length ∧
        readLoop (done.length + todo.length) fuel (done.length, done ++ todo) s =
          (.ok (some (done ++ expand rs)), rest) := by
  induction fuel generalizing done todo s with
  | zero => omega
  | succ fuel ih =>
    rw [readLoop]
    by_cases htodo : todo = []
    · subst htodo
      exact .inr ⟨[], [], s, rfl, by simp, rfl, by simp, rfl, by simp [expand]; rfl⟩
    · have hpos := List.length_pos_iff.mpr htodo
      rw [if_pos (by omega)]
      rcases readRun_cases done todo s with hthrows | ⟨count, sup, s', hcount, hle, hhash, rfl, hrun⟩
      · exact .inl (Reader.throws_bind hthrows _)
      · rw [Reader.bind_of_ok hrun]
        -- the levels of the run are filled now
        have hdone : (done ++ List.replicate count sup).length = done.length + count := by simp
        have htotal : done.length + todo.length =
            (done ++ List.replicate count sup).length + (todo.drop count).length := by
          rw [hdone, List.length_drop]
          omega
        have hsize : 5 ≤ (UInt8.ofNat count :: sup.writeDataStream).length := by
          rw [List.length_cons, MiniData.writeDataStream, List.length_append,
            MiniData.length_writeInt32BE]
          omega
        have hshort : s'.length < 5 * fuel := by
          rw [← List.cons_append, List.length_append] at hfuel
          omega
        rw [htotal, ← hdone]
        refine (ih _ _ _ hshort).imp_right ?_
        rintro ⟨rs, bytes, rest, rfl, hbytes, hwrite, hlong, hfill, hread⟩
        refine ⟨(count, sup) :: rs, UInt8.ofNat count :: sup.writeDataStream ++ bytes, rest, ?_, ?_, ?_, ?_,
          ?_, ?_⟩
        · simp
        · exact List.forall_mem_cons.mpr ⟨hcount, hbytes⟩
        · rw [Coin.writeAll] at hwrite
          rw [Coin.writeAll, List.map_cons, Crypto.concatAll, writeRun, MiniData.writeHashToStream_eq hhash,
            hwrite]
          rfl
        · rw [List.length_cons, List.length_append]
          omega
        · rw [expand_cons, List.length_append, List.length_replicate, hfill, List.length_drop]
          omega
        · rw [hread, expand_cons, List.append_assoc]

/-- **The loop and the list decoder** read the same, as long as neither runs out of fuel. -/
theorem readLoop_eq {fuel fuel' : ℕ} (done todo : List MiniData) {s : List Byte}
    (hfuel : s.length < 5 * fuel) (hfuel' : s.length ≤ fuel') :
    readLoop (done.length + todo.length) fuel (done.length, done ++ todo) s =
      ((fun sups => some (done ++ sups)) <$> readRuns fuel' todo.length) s := by
  induction fuel generalizing done todo s fuel' with
  | zero => omega
  | succ fuel ih =>
    rw [readLoop]
    cases htodo : todo with
    | nil =>
      rw [if_neg (by simp), List.append_nil, List.length_nil, readRuns]
      simp only [map_pure, List.append_nil]
    | cons d ds =>
      rw [← htodo, if_pos (by simp [htodo])]
      have hlen : todo.length = ds.length + 1 := by rw [htodo, List.length_cons]
      cases s with
      | nil =>
        have hthrows : readRuns fuel' todo.length [] =
            (throwException "MiniByte::readDataStream failed", []) := by
          rw [hlen]
          cases fuel' <;> rfl
        exact (Reader.map_of_error hthrows _).symm
      | cons b s =>
        rw [List.length_cons] at hfuel hfuel'
        obtain ⟨fuel', rfl⟩ : ∃ n, fuel' = n + 1 := ⟨fuel' - 1, by omega⟩
        have hbyte : Reader.readByte (b :: s) = (.ok b, s) := rfl
        have hruns : readRuns (fuel' + 1) todo.length (b :: s) =
            (MiniData.readHashFromStream >>= fun sup =>
              if todo.length < b.toNat then
                Reader.throwing "SuperParents overflow during RLE decode"
              else do
                let rest ← readRuns fuel' (todo.length - b.toNat)
                return List.replicate b.toNat sup ++ rest) s := by
          rw [hlen, readRuns]
          exact Reader.bind_of_ok hbyte _
        have hrun : readRun (done.length + todo.length) (done.length, done ++ todo) (b :: s) =
            (MiniData.readHashFromStream >>= fun sup =>
              Reader.lift (fillRun (done.length + todo.length) sup b.toNat (done.length, done ++ todo))) s :=
          Reader.bind_of_ok hbyte _
        rcases hhash : MiniData.readHashFromStream s with ⟨e | sup, s'⟩
        · rw [Reader.bind_of_error hhash] at hruns hrun
          rw [Reader.bind_of_error hrun, Reader.map_of_error hruns]
        · obtain ⟨-, rfl⟩ := MiniData.readHashFromStream_eq_ok hhash
          rw [Reader.bind_of_ok hhash] at hruns hrun
          rw [List.length_append] at hfuel hfuel'
          rw [fillRun_eq] at hrun
          by_cases hcount : b.toNat ≤ todo.length
          · rw [if_pos hcount] at hrun
            rw [if_neg (by omega)] at hruns
            -- the levels of the run are filled now
            have hdone : (done ++ List.replicate b.toNat sup).length = done.length + b.toNat := by simp
            have htotal : done.length + todo.length =
                (done ++ List.replicate b.toNat sup).length + (todo.drop b.toNat).length := by
              rw [hdone, List.length_drop]
              omega
            have hmore := @ih fuel' (done ++ List.replicate b.toNat sup) (todo.drop b.toNat) s'
              (by rw [MiniData.writeDataStream, List.length_append, MiniData.length_writeInt32BE] at hfuel; omega)
              (by omega)
            rw [List.length_drop] at hmore
            rw [Reader.bind_of_ok hrun, htotal, ← hdone, List.length_drop, hmore]
            rcases hrest : readRuns fuel' (todo.length - b.toNat) s' with ⟨e | sups, rest⟩
            · rw [Reader.bind_of_error hrest] at hruns
              rw [Reader.map_of_error hrest, Reader.map_of_error hruns]
            · rw [Reader.bind_of_ok hrest] at hruns
              rw [Reader.map_of_ok hrest, Reader.map_of_ok hruns, List.append_assoc]
          · rw [if_neg hcount] at hrun
            rw [if_pos (by omega)] at hruns
            rw [Reader.bind_of_error hrun, Reader.map_of_error hruns]

/-- `readDataStream` reads the super parents as the loop does. -/
theorem decodeSuperParents_eq {fuel : ℕ} {s : List Byte} (hfuel : s.length < 5 * fuel) :
    decodeSuperParents fuel s = ((fun supers => some (List.ofFn supers)) <$> readSuperParents) s := by
  have hloop := @readLoop_eq fuel s.length [] (List.replicate cascadeLevels ⟨[]⟩) s hfuel le_rfl
  simp only [List.length_nil, Nat.zero_add, List.length_replicate, List.nil_append] at hloop
  rw [decodeSuperParents, hloop]
  rcases hruns : readRuns s.length cascadeLevels s with ⟨e | sups, rest⟩
  · have hread : readSuperParents s = (.error e, rest) := by
      unfold readSuperParents
      split
      · next hsups =>
        rw [hruns] at hsups
        cases hsups
      · next he =>
        rw [hruns, Prod.mk.injEq, Except.error.injEq] at he
        rw [he.1, he.2]
    rw [Reader.map_of_error hruns, Reader.map_of_error hread]
  · have hlen := length_of_readRuns hruns
    have hofFn : List.ofFn (fun i : Fin cascadeLevels => sups.get (i.cast hlen.symm)) = sups :=
      List.ext_getElem (by rw [List.length_ofFn, hlen]) fun i h1 h2 => by simp
    have hread := readSuperParents_eq (hofFn.symm ▸ hruns)
    rw [Reader.map_of_ok hruns, Reader.map_of_ok hread, hofFn]

/-- **The super parents are a run-length code.** The writer writes every array of hashes, and what it
writes is read as this array, whatever follows it. From any stream the reader either throws, or it
fills every level, with runs that are at most a byte long each and hold as many entries together as
there are levels; the bytes it takes are these runs, and no write misses the vector. Every pass takes
five bytes or more, so that a fifth of the stream bounds the passes. -/
theorem superParents_runs :
    (∀ supers : Fin cascadeLevels → MiniData,
      ((∃ bytes, writeSuperParents supers = .ok bytes) ↔
        ∀ i, (supers i).getLength ≤ MiniData.maxHashLength) ∧
      ∀ bytes, writeSuperParents supers = .ok bytes → ∀ rest fuel, (bytes ++ rest).length < 5 * fuel →
        decodeSuperParents fuel (bytes ++ rest) = (.ok (some (List.ofFn supers)), rest)) ∧
    ∀ s fuel, s.length < 5 * fuel →
      Throws (decodeSuperParents fuel s).1 ∨
        ∃ rs bytes rest supers, s = bytes ++ rest ∧
          decodeSuperParents fuel s = (.ok (some supers), rest) ∧
          supers = expand rs ∧ supers.length = cascadeLevels ∧ (rs.map Prod.fst).sum = cascadeLevels ∧
          (∀ run ∈ rs, run.1 < 256) ∧ Coin.writeAll writeRun rs = .ok bytes ∧
          5 * rs.length ≤ bytes.length := by
  constructor
  · intro supers
    rw [writeSuperParents_eq]
    have hlong : (∀ i, (supers i).getLength ≤ MiniData.maxHashLength) →
        ∃ bytes, Coin.writeAll writeRun (runs (List.ofFn supers)) = .ok bytes ∧
          Reads readSuperParents bytes supers := transmitsSuperParents
    have hshort : ∀ bytes, Coin.writeAll writeRun (runs (List.ofFn supers)) = .ok bytes →
        ∀ i, (supers i).getLength ≤ MiniData.maxHashLength := by
      intro bytes hwrite i
      have hmem : supers i ∈ expand (runs (List.ofFn supers)) := by
        rw [(runs_spec _).1]
        exact List.mem_ofFn.mpr ⟨i, rfl⟩
      obtain ⟨run, hrun, hmem⟩ := List.mem_flatMap.mp hmem
      rw [List.eq_of_mem_replicate hmem]
      exact length_of_writeAll hwrite run hrun
    refine ⟨⟨fun ⟨bytes, hwrite⟩ => hshort bytes hwrite, fun h => (hlong h).imp fun _ => And.left⟩, ?_⟩
    intro bytes hwrite rest fuel hfuel
    obtain ⟨bytes', hwrite', hread⟩ := hlong (hshort bytes hwrite)
    rw [hwrite, Except.ok.injEq] at hwrite'
    subst hwrite'
    rw [decodeSuperParents_eq hfuel]
    exact Reader.map_of_ok (hread rest) _
  · intro s fuel hfuel
    rw [decodeSuperParents]
    have hcases := readLoop_cases fuel [] (List.replicate cascadeLevels ⟨[]⟩) s hfuel
    simp only [List.length_nil, Nat.zero_add, List.length_replicate, List.nil_append] at hcases
    refine hcases.imp_right ?_
    rintro ⟨rs, bytes, rest, hs, hbytes, hwrite, hlong, hfill, hread⟩
    refine ⟨rs, bytes, rest, expand rs, hs, hread, rfl, hfill, ?_, hbytes, hwrite, hlong⟩
    rw [← hfill, expand, List.length_flatMap]
    simp

end TxHeader

end Minima
