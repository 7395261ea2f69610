import Stave.Proofs.Sound.Arithmetic
import Stave.Proofs.Time.Mixing

/-!
# How far a block reaches

The clock runs on doubles.  However these are rounded, the ticks that a block moves it by are no more
than a small multiple of the exact ones, and the frames that such a tick is turned back into are no
more than a small multiple of the frames of the block.
-/

namespace Stave

theorem hasValue_sixty : HasValue (Scalar.ofNat 60) 60 := by
  exact_mod_cast hasValue_ofNat (n := 60) (by decide)

theorem hasValue_perBeat : HasValue (Scalar.ofNat Ticks.perBeat) 960 := by
  exact_mod_cast hasValue_ofNat (n := 960) (by decide)

/-! ## The ticks of a block -/

/-- The ticks that some frames take, besides a carried fraction: rounding adds little to the exact ones,
and they are no number only where the exact ones are very many. -/
theorem exists_moved {frames sampleRate : Nat} {bpm : Float} {tempo : ℚ}
    (hframes : frames < 2 ^ 32) (hsampleRate : sampleRate < 2 ^ 32) (hpos : 0 < sampleRate)
    (hbpm : HasValue bpm tempo) (htempo : 0 < tempo) :
    let moved : Float := Scalar.ofNat frames / Scalar.ofNat sampleRate * bpm / Scalar.ofNat 60
      * Scalar.ofNat Ticks.perBeat
    (∃ d ≤ (1 + 1 / 2 ^ 49) * (16 * (frames / sampleRate * tempo)) + 1 / 2 ^ 40, HasValue moved d)
      ∨ IsInfinite moved ∧ 2 ^ 180 ≤ frames / sampleRate * tempo := by
  have hleast := leastStep_le
  have hleastTempo := hbpm.leastStep_mul_le htempo
  have hframesValue := hasValue_ofNat (hframes.trans (by decide : 2 ^ 32 < 2 ^ 53))
  have hrateValue := hasValue_ofNat (hsampleRate.trans (by decide : 2 ^ 32 < 2 ^ 53))
  have hratePos : (1 : ℚ) ≤ sampleRate := by exact_mod_cast hpos
  have hexact : (0 : ℚ) ≤ frames / sampleRate := div_nonneg (Nat.cast_nonneg _) (Nat.cast_nonneg _)
  have hsmall : (frames : ℚ) / sampleRate < 2 ^ 200 := by
    have hlt : (frames : ℚ) < (2 ^ 32 : Nat) := by exact_mod_cast hframes
    push_cast at hlt
    rw [div_lt_iff₀ (by linarith)]
    linarith
  obtain ⟨seconds, hsecondsRound, hseconds⟩ :=
    (hframesValue.div hrateValue (by linarith)).exists_hasValue hsmall
  have hproduct : seconds * tempo
      ≤ (1 + 1 / 2 ^ 52) * (frames / sampleRate * tempo) + leastStep * tempo := by
    calc seconds * tempo
        ≤ (frames / sampleRate + frames / sampleRate / 2 ^ 52 + leastStep) * tempo := by
          gcongr
          exact hsecondsRound.le_add hexact
      _ = _ := by ring
  have hexactMul : 0 ≤ (frames : ℚ) / sampleRate * tempo := mul_nonneg hexact htempo.le
  intro moved
  generalize (frames : ℚ) / sampleRate * tempo = exact at hproduct hexactMul ⊢
  norm_num at hleast hleastTempo hproduct ⊢
  -- the three other results are numbers one after the other, or infinite from one of them on
  rcases (hseconds.mul hbpm).exists_near_or (mul_nonneg hseconds.nonneg htempo.le) with
    ⟨perMinute, hperMinuteLe, hperMinute⟩ | ⟨hinfinite, hlarge⟩
  · rcases (hperMinute.div hasValue_sixty (by norm_num)).exists_near_or
      (div_nonneg hperMinute.nonneg (by norm_num)) with ⟨beats, hbeatsLe, hbeats⟩ | ⟨hinfinite, hlarge⟩
    · rcases (hbeats.mul hasValue_perBeat).exists_near_or (mul_nonneg hbeats.nonneg (by norm_num)) with
        ⟨ticks, hticksLe, hticks⟩ | ⟨hinfinite, hlarge⟩
      · norm_num at hperMinuteLe hbeatsLe hticksLe
        exact .inl ⟨ticks, by linarith, hticks⟩
      · norm_num at hperMinuteLe hbeatsLe hlarge
        exact .inr ⟨hinfinite, by linarith⟩
    · norm_num at hperMinuteLe hlarge
      exact .inr ⟨hinfinite.mul hasValue_perBeat (by norm_num), by linarith⟩
  · norm_num at hlarge
    exact .inr ⟨(hinfinite.div hasValue_sixty (by norm_num)).mul hasValue_perBeat (by norm_num),
      by linarith⟩

/-! ## The clock -/

namespace Transport

/-- The clock carries at most one tick, or nothing that is a number. -/
def CarriesFraction (t : Transport Float) : Prop :=
  IsNaN t.carry ∨ ∃ carry ≤ 1, HasValue t.carry carry

section

variable {t : Transport Float} {frames : Nat} {tempo : ℚ}

/-- Where the clock stands after a block: not too far, unless it has stopped being a number. -/
theorem elapsed_cases (hcarry : t.CarriesFraction) (hframes : frames < 2 ^ 32)
    (hsampleRate : t.sampleRate < 2 ^ 32) (hpos : 0 < t.sampleRate) (hbpm : HasValue t.bpm tempo)
    (htempo : 0 < tempo) :
    IsNaN (t.elapsed frames)
      ∨ IsInfinite (t.elapsed frames) ∧ 2 ^ 180 ≤ frames / t.sampleRate * tempo
      ∨ ∃ v ≤ (1 + 1 / 2 ^ 48) * (16 * (frames / t.sampleRate * tempo)) + 1 + 1 / 2 ^ 39,
        HasValue (t.elapsed frames) v := by
  have hmoved := exists_moved hframes hsampleRate hpos hbpm htempo
  have hexact : 0 ≤ (frames : ℚ) / t.sampleRate * tempo := by positivity
  have hleast := leastStep_le
  unfold elapsed
  generalize (Scalar.ofNat frames / Scalar.ofNat t.sampleRate * t.bpm / Scalar.ofNat 60
    * Scalar.ofNat Ticks.perBeat : Float) = moved at hmoved ⊢
  generalize (frames : ℚ) / t.sampleRate * tempo = exact at hmoved hexact ⊢
  rcases hcarry with hnan | ⟨carry, hcarry, hvalue⟩
  · exact .inl hnan.add
  rcases hmoved with ⟨d, hdle, hd⟩ | ⟨hinfinite, hlarge⟩
  · refine .inr (((hvalue.add hd).exists_near_or (add_nonneg hvalue.nonneg hd.nonneg)).symm.imp
      (And.imp_right fun hlarge => ?_) fun ⟨v, hvle, hv⟩ => ⟨v, ?_, hv⟩)
    · norm_num at hlarge hdle ⊢
      linarith
    · norm_num at hvle hdle hleast ⊢
      linarith
  · exact .inr (.inl ⟨hvalue.add_infinite hinfinite, hlarge⟩)

/-- The fraction that is left is carried. -/
theorem carriesFraction_move (hcarry : t.CarriesFraction) (hframes : frames < 2 ^ 32)
    (hsampleRate : t.sampleRate < 2 ^ 32) (hpos : 0 < t.sampleRate) (hbpm : HasValue t.bpm tempo)
    (htempo : 0 < tempo) : (t.move frames).2.CarriesFraction := by
  show IsNaN (t.elapsed frames - Scalar.floor (t.elapsed frames)) ∨ ∃ carry ≤ 1,
    HasValue (t.elapsed frames - Scalar.floor (t.elapsed frames)) carry
  rcases elapsed_cases hcarry hframes hsampleRate hpos hbpm htempo with
    hnan | ⟨hinfinite, -⟩ | ⟨v, -, hv⟩
  · exact .inl hnan.sub
  · rw [hinfinite.floor]
    exact .inl hinfinite.sub_self
  · obtain ⟨whole, hwhole, hle, hlt⟩ := hv.floor
    obtain ⟨carry, hround, hcarry⟩ := (hv.sub hwhole hle).exists_hasValue (by norm_num; linarith)
    refine .inr ⟨carry, ?_, hcarry⟩
    have hbound := hround.le_of_lt 1 0 (by decide)
      (by norm_num; linarith) (by norm_num; linarith)
    simpa using hbound

/-- The ticks that a block adds to the count are hardly more than the exact ones. -/
theorem toNat_floor_elapsed_le (hcarry : t.CarriesFraction) (hframes : frames < 2 ^ 32)
    (hsampleRate : t.sampleRate < 2 ^ 32) (hpos : 0 < t.sampleRate) (hbpm : HasValue t.bpm tempo)
    (htempo : 0 < tempo) :
    (Scalar.toNat (Scalar.floor (t.elapsed frames)) : ℚ)
      ≤ (1 + 1 / 2 ^ 48) * (16 * (frames / t.sampleRate * tempo)) + 1 + 1 / 2 ^ 39 := by
  have hexact : 0 ≤ (frames : ℚ) / t.sampleRate * tempo := by positivity
  rcases elapsed_cases hcarry hframes hsampleRate hpos hbpm htempo with
    hnan | ⟨hinfinite, hlarge⟩ | ⟨v, hvle, hv⟩
  · rw [hnan.floor, hnan.toNat, Nat.cast_zero]
    positivity
  · have hcount : ((Scalar.toNat (Scalar.floor (t.elapsed frames)) : Nat) : ℚ) < (2 ^ 64 : Nat) := by
      exact_mod_cast (Scalar.floor (t.elapsed frames)).toUInt64.toNat_lt
    push_cast at hcount
    calc (Scalar.toNat (Scalar.floor (t.elapsed frames)) : ℚ) ≤ 2 ^ 64 := hcount.le
      _ ≤ 2 ^ 180 := by norm_num
      _ ≤ frames / t.sampleRate * tempo := hlarge
      _ ≤ _ := by linarith
  · obtain ⟨whole, hwhole, hle, -⟩ := hv.floor
    exact hwhole.toNat_le.trans (hle.trans hvle)

/-- The ticks that a block reaches are few against its frames. -/
theorem count_mul_le (hcarry : 0 < t.sampleRate → t.CarriesFraction) (hframes : frames < 2 ^ 32)
    (hsampleRate : t.sampleRate < 2 ^ 32) (hbpm : HasValue t.bpm tempo)
    (htempo : 0 < tempo) {n : Nat} (hn : n < Scalar.toNat (Scalar.floor (t.elapsed frames))) :
    (n : ℚ) * t.sampleRate ≤ 2 ^ 12 * (frames * tempo) := by
  rcases Nat.eq_zero_or_pos n with rfl | hpositive
  · rw [Nat.cast_zero, zero_mul]
    positivity
  rcases Nat.eq_zero_or_pos t.sampleRate with hzero | hpos
  · rw [hzero, Nat.cast_zero, mul_zero]
    positivity
  have hratePos : (0 : ℚ) < t.sampleRate := by exact_mod_cast hpos
  have hexact : frames / t.sampleRate * tempo * t.sampleRate = (frames * tempo : ℚ) := by
    field_simp
  have hbound := toNat_floor_elapsed_le (hcarry hpos) hframes hsampleRate hpos hbpm htempo
  have hcount : (n : ℚ) + 1 ≤ Scalar.toNat (Scalar.floor (t.elapsed frames)) := by exact_mod_cast hn
  have hone : (1 : ℚ) ≤ n := by exact_mod_cast hpositive
  rw [← hexact, ← mul_assoc]
  refine mul_le_mul_of_nonneg_right ?_ hratePos.le
  norm_num at hbound ⊢
  linarith

end

end Transport

/-! ## The frames of a distance -/

namespace Ticks

variable {t : Ticks} {bpm : Float} {sampleRate frames : Nat} {tempo : ℚ}

/-- What is divided by the tempo is not much more than it would be exactly. -/
theorem exists_numerator (hframes : frames < 2 ^ 32) (hsampleRate : sampleRate < 2 ^ 32)
    (hbpm : HasValue bpm tempo) (htempo : 0 < tempo)
    (hreached : (t.toNat : ℚ) * sampleRate ≤ 2 ^ 12 * (frames * tempo)) :
    ∃ numerator ≤ 2 ^ 45 * 479 * tempo, HasValue
      (Scalar.ofNat t.toNat * Scalar.ofNat 60 * Scalar.ofNat sampleRate) numerator := by
  have hleast := leastStep_le_one
  have hleastTempo := (hbpm.bounds htempo).1
  have hrate := hasValue_ofNat (hsampleRate.trans (by decide : 2 ^ 32 < 2 ^ 53))
  have hcountLt : (t.toNat : ℚ) < (2 ^ 64 : Nat) := by exact_mod_cast t.toNat_lt
  have hrateLt : (sampleRate : ℚ) < (2 ^ 32 : Nat) := by exact_mod_cast hsampleRate
  have hframesLt : (frames : ℚ) < (2 ^ 32 : Nat) := by exact_mod_cast hframes
  push_cast at hcountLt hrateLt hframesLt
  obtain ⟨count, hcountLe, hcount⟩ :=
    (hasResult_ofNat t.toNat_lt).exists_le (Nat.cast_nonneg _) (by linarith)
  obtain ⟨minutes, hminutesLe, hminutes⟩ :=
    (hcount.mul hasValue_sixty).exists_le (mul_nonneg hcount.nonneg (by norm_num)) (by linarith)
  have hproductLt : minutes * sampleRate < 2 ^ 200 := by
    calc minutes * sampleRate ≤ 2 ^ 80 * 2 ^ 32 := by
          gcongr
          · linarith
          · linarith
      _ < 2 ^ 200 := by norm_num
  obtain ⟨numerator, hnumeratorLe, hnumerator⟩ :=
    (hminutes.mul hrate).exists_le (mul_nonneg hminutes.nonneg (Nat.cast_nonneg _)) hproductLt
  refine ⟨numerator, ?_, hnumerator⟩
  have hproduct : minutes * sampleRate ≤ (240 * 2 ^ 12 * frames + 121 * sampleRate) * tempo := by
    calc minutes * sampleRate ≤ (240 * t.toNat + 121 * leastStep) * sampleRate := by
          gcongr
          linarith
      _ = 240 * (t.toNat * sampleRate) + 121 * (sampleRate * leastStep) := by ring
      _ ≤ 240 * (2 ^ 12 * (frames * tempo)) + 121 * (sampleRate * tempo) := by gcongr
      _ = _ := by ring
  calc numerator ≤ (480 * 2 ^ 12 * frames + 242 * sampleRate + 1) * tempo := by linarith
    _ ≤ 2 ^ 45 * 479 * tempo := by
      gcongr
      linarith

/-- A distance within a block is not much longer in frames than the block. -/
theorem toFrames_lt (hframes : frames < 2 ^ 32) (hsampleRate : sampleRate < 2 ^ 32)
    (hbpm : HasValue bpm tempo) (htempo : 0 < tempo)
    (hreached : (t.toNat : ℚ) * sampleRate ≤ 2 ^ 12 * (frames * tempo)) :
    t.toFrames bpm sampleRate < 2 ^ 48 := by
  have hleast := leastStep_le_one
  obtain ⟨numerator, hnumeratorLe, hnumerator⟩ :=
    exists_numerator hframes hsampleRate hbpm htempo hreached
  obtain ⟨quotient, hquotientLe, hquotient⟩ : ∃ quotient ≤ 2 ^ 46 + 1, HasValue
      (Scalar.ofNat t.toNat * Scalar.ofNat 60 * Scalar.ofNat sampleRate
        / (Scalar.ofNat perBeat * bpm)) quotient := by
    rcases hasValue_perBeat.mul hbpm with ⟨beats, hround, hbeats⟩ | ⟨hinfinite, -⟩
    · have hbeatsLe := hround.le_two_mul_rounded (mul_nonneg (by norm_num) htempo.le)
      have hleastTempo := (hbpm.bounds htempo).1
      have hbeatsPos : 0 < beats := by linarith
      have hexact : numerator / beats ≤ 2 ^ 45 := by
        rw [div_le_iff₀ hbeatsPos]
        linarith
      obtain ⟨quotient, hle, hquotient⟩ := (hnumerator.div hbeats hbeatsPos).exists_le
        (div_nonneg hnumerator.nonneg hbeatsPos.le) (by linarith)
      exact ⟨quotient, by linarith, hquotient⟩
    · exact ⟨0, by norm_num, hnumerator.div_infinite hinfinite⟩
  have hlt : ((t.toFrames bpm sampleRate : Nat) : ℚ) < (2 ^ 48 : Nat) := by
    push_cast
    exact hquotient.toNat_round_le.trans_lt (by linarith)
  exact_mod_cast hlt

end Ticks

/-! ## Blocks -/

namespace Scheduler

section

variable {α β : Type} [Scalar α] {s : Scheduler α β}

/-- The events of a block are less far from its start than the clock moves. -/
theorem distance_lt (hinside : ∀ length, s.loopLength = some length → s.transport.position < length)
    {e : NoteEvent} {distance : Ticks} (h : (e, distance) ∈ s.dueNext.1) :
    distance.toNat < Scalar.toNat (Scalar.floor (s.transport.elapsed s.blockSize)) := by
  have hle : (s.transport.move s.blockSize).1.finish.toNat ≤ s.transport.position.toNat
      + Scalar.toNat (Scalar.floor (s.transport.elapsed s.blockSize)) := Ticks.toNat_add_ofNat_le _ _
  generalize Scalar.toNat (Scalar.floor (s.transport.elapsed s.blockSize)) = moved at hle ⊢
  obtain ⟨finish, hfinish⟩ : ∃ finish, finish = (s.transport.move s.blockSize).1.finish := ⟨_, rfl⟩
  rw [← hfinish] at hle
  have hwindow {found : NoteEvent} {last : Ticks} {t : Timeline}
      (hfound : found ∈ (t.drain s.transport.position last).1) (hlast : last.toNat ≤ finish.toNat) :
      (found.beat - s.transport.position).toNat < moved := by
    obtain ⟨hstart, hend⟩ := Timeline.beat_mem_of_mem_drain hfound
    rw [Ticks.le_iff_toNat_le] at hstart
    rw [Ticks.lt_iff_toNat_lt] at hend
    rw [Ticks.toNat_sub]
    omega
  have honce (hdue : s.dueNext.1 = (s.timeline.drain s.transport.position finish).1.map
      fun e => (e, e.beat - s.transport.position)) : distance.toNat < moved := by
    rw [hdue] at h
    obtain ⟨found, hfound, heq⟩ := List.mem_map.mp h
    obtain ⟨-, rfl⟩ := Prod.mk.inj heq
    exact hwindow hfound le_rfl
  cases hloop : s.loopLength with
  | none => exact honce (by rw [dueNext_of_once s hloop, hfinish])
  | some length =>
    by_cases hbefore : finish < length
    · exact honce (by rw [dueNext_of_inside s hloop (hfinish ▸ hbefore), hfinish])
    · have hlength := Ticks.le_iff_toNat_le.mp (Ticks.not_lt.mp hbefore)
      have hposition := Ticks.lt_iff_toNat_lt.mp (hinside length hloop)
      rw [dueNext_of_wrapping s hloop (hfinish ▸ Ticks.not_lt.mp hbefore)] at h
      rcases List.mem_append.mp h with h | h
      · obtain ⟨found, hfound, heq⟩ := List.mem_map.mp h
        obtain ⟨-, rfl⟩ := Prod.mk.inj heq
        exact hwindow hfound hlength
      · -- behind the end of the loop the distance goes on from the top
        obtain ⟨found, hfound, heq⟩ := List.mem_map.mp h
        obtain ⟨-, rfl⟩ := Prod.mk.inj heq
        have hend := (Timeline.beat_mem_of_mem_drain hfound).2
        have hpositive : Ticks.zero < length :=
          Ticks.lt_iff_toNat_lt.mpr (Nat.lt_of_le_of_lt (Nat.zero_le _) hposition)
        rw [Ticks.lt_iff_toNat_lt, Ticks.toNat_wrap hpositive, ← hfinish, Ticks.toNat_sub] at hend
        have hmod := Nat.mod_le (finish.toNat - length.toNat) length.toNat
        have hsum := Nat.mod_le (length.toNat - s.transport.position.toNat + found.beat.toNat) (2 ^ 64)
        rw [Ticks.toNat_add, Ticks.toNat_sub]
        omega

end

variable {β : Type} {s : Scheduler Float β}

/-- A scheduler whose clock is measured in words of 32 bits, goes at a tempo, and stands before the end
of its loop. -/
structure KeepsTime (s : Scheduler Float β) : Prop where
  sampleRate_lt : s.transport.sampleRate < 2 ^ 32
  blockSize_lt : s.blockSize < 2 ^ 32
  exists_tempo : ∃ tempo, 0 < tempo ∧ HasValue s.transport.bpm tempo
  carriesFraction : 0 < s.transport.sampleRate → s.transport.CarriesFraction
  position_lt : ∀ length, s.loopLength = some length → s.transport.position < length

/-- No onset is far behind the start of its block. -/
theorem KeepsTime.frame_lt (h : s.KeepsTime) {onset : Onset Float} (honset : onset ∈ s.onsetsNext) :
    onset.frame < 2 ^ 48 := by
  obtain ⟨tempo, htempo, hbpm⟩ := h.exists_tempo
  obtain ⟨⟨e, distance⟩, hdue, rfl⟩ := List.mem_map.mp honset
  show distance.toFrames s.dueNext.2.2.bpm s.dueNext.2.2.sampleRate < 2 ^ 48
  rw [s.bpm_dueNext, s.sampleRate_dueNext]
  exact Ticks.toFrames_lt h.blockSize_lt h.sampleRate_lt hbpm htempo
    (Transport.count_mul_le h.carriesFraction h.blockSize_lt h.sampleRate_lt hbpm htempo
      (distance_lt h.position_lt hdue))

theorem carry_dueNext : s.dueNext.2.2.carry = (s.transport.move s.blockSize).2.carry := by
  rw [dueNext, due]
  split <;> rfl

/-- The next block keeps time as well. -/
theorem KeepsTime.next (h : s.KeepsTime) (timeline : Timeline) (tail : List β) :
    KeepsTime { s with timeline, transport := s.dueNext.2.2, tail } := by
  obtain ⟨tempo, htempo, hbpm⟩ := h.exists_tempo
  refine ⟨?_, h.blockSize_lt, ⟨tempo, htempo, ?_⟩, fun hpos => ?_, fun length hlooped => ?_⟩
  · exact s.sampleRate_dueNext.trans_lt h.sampleRate_lt
  · exact s.bpm_dueNext.symm ▸ hbpm
  · have hpositive : 0 < s.transport.sampleRate := s.sampleRate_dueNext ▸ hpos
    have hmoved := Transport.carriesFraction_move (h.carriesFraction hpositive) h.blockSize_lt
      h.sampleRate_lt hpositive hbpm htempo
    rwa [Transport.CarriesFraction, ← carry_dueNext] at hmoved
  · exact position_dueNext_lt hlooped (Ticks.lt_iff_toNat_lt.mpr
      (Nat.lt_of_le_of_lt (Nat.zero_le _) (Ticks.lt_iff_toNat_lt.mp (h.position_lt length hlooped))))

end Scheduler

end Stave
