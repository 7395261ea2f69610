import Stave.Proofs.Mix.Spreading
import Stave.Proofs.Mix.Stream
import Stave.Proofs.Sound.Signs
import Stave.Proofs.Time.Measuring
import Stave.Router
import Stave.Song.Overrides

/-!
# Voices with a song's settings

What a song sets for a voice is brought into range, a time from below and a level from both sides.  An
infinite time is not below zero, and what is not a number is on neither side of anything, so that these
two come through; everything else leaves a voice that can be heard.  How many frames a note sounds
follows from its length and the time for which its voice goes on.
-/

namespace Stave

/-! ## Times and levels -/

/-- A time that a voice can take, in seconds. -/
def IsTime (x : Float) : Prop := x.isFinite = true ∧ 0 ≤ x

/-- A level between silence and full loudness. -/
def IsLevel (x : Float) : Prop := 0 ≤ x ∧ x ≤ 1

instance (x : Float) : Decidable (IsTime x) := inferInstanceAs (Decidable (_ ∧ _))

instance (x : Float) : Decidable (IsLevel x) := inferInstanceAs (Decidable (_ ∧ _))

section Numbers

variable {x : Float} {v : ℚ}

theorem HasValue.isTime (h : HasValue x v) : IsTime x :=
  ⟨h.isFinite, isMeasure_iff.mp (.inl ⟨v, h⟩)⟩

theorem HasValue.isLevel (h : HasValue x v) (hle : v ≤ 1) : IsLevel x :=
  ⟨isMeasure_iff.mp (.inl ⟨v, h⟩), (h.le_iff hasValue_one).mpr hle⟩

theorem IsInfinite.not_isTime (h : IsInfinite x) : ¬IsTime x := fun htime => h.not_isFinite htime.1

theorem IsNaN.not_isLevel (h : IsNaN x) : ¬IsLevel x := fun hlevel => by
  rcases isMeasure_iff.mpr hlevel.1 with ⟨v, hv⟩ | hinfinite
  · unfold HasValue at hv
    rw [h] at hv
    cases hv
  · cases h.symm.trans hinfinite

variable {setting : Option Float} {standard : Float}

/-- A time that may be set is one that a voice can take, unless it is infinite. -/
theorem isTime_getD_iff (hstandard : IsTime standard) :
    IsTime ((setting.map Scalar.orZero).getD standard) ↔ ∀ x ∈ setting, ¬IsInfinite x := by
  cases setting with
  | none => exact iff_of_true hstandard fun _ hmem => nomatch hmem
  | some x =>
    simp only [Option.map_some, Option.getD_some, Option.mem_some_iff, forall_eq']
    rcases orZero_cases x with ⟨hset, hkept⟩ | ⟨hset, v, hkept⟩
    · exact iff_of_false hkept.not_isTime (not_not.mpr hset)
    · exact iff_of_true hkept.isTime hset

/-- Whatever is set, a voice goes on for some time, if need be for ever. -/
theorem isMeasure_getD (hstandard : IsTime standard) :
    IsMeasure ((setting.map Scalar.orZero).getD standard) := by
  cases setting with
  | none => exact isMeasure_iff.mpr hstandard.2
  | some x => exact (orZero_cases x).elim (fun h => .inr h.2) fun h => .inl h.2

/-- A level that may be set is one that a voice can have, unless it is not a number. -/
theorem isLevel_getD_iff (hstandard : IsLevel standard) :
    IsLevel ((setting.map fun x => Scalar.clamp x (Scalar.ofNat 0) (Scalar.ofNat 1)).getD standard)
      ↔ ∀ x ∈ setting, ¬IsNaN x := by
  cases setting with
  | none => exact iff_of_true hstandard fun _ hmem => nomatch hmem
  | some x =>
    simp only [Option.map_some, Option.getD_some, Option.mem_some_iff, forall_eq']
    rcases clamp_cases x with ⟨hset, hkept⟩ | ⟨hset, v, hle, hkept⟩
    · exact iff_of_false hkept.not_isLevel (not_not.mpr hset)
    · exact iff_of_true (hkept.isLevel hle) hset

end Numbers

/-! ## Envelopes -/

/-- Whether an envelope can be heard: its times are times, and its level is one. -/
structure Envelope.IsSane (e : Envelope Float) : Prop where
  attack : IsTime e.attack
  decay : IsTime e.decay
  sustain : IsLevel e.sustain
  release : IsTime e.release

/-- Whether no setting comes through that a voice cannot take. -/
structure VoiceSettings.IsTame (s : VoiceSettings) : Prop where
  attack : ∀ x ∈ s.attack, ¬IsInfinite x
  decay : ∀ x ∈ s.decay, ¬IsInfinite x
  sustain : ∀ x ∈ s.sustain, ¬IsNaN x
  release : ∀ x ∈ s.release, ¬IsInfinite x

/-- The settings that a channel's voice looks at: all of them, but only the release for a string. -/
def VoiceSettings.heard (s : VoiceSettings) (channel : String) : VoiceSettings :=
  if channel = "pluck" then { VoiceSettings.none with release := s.release } else s

theorem VoiceSettings.isTame_heard_pluck (s : VoiceSettings) :
    (s.heard "pluck").IsTame ↔ ∀ x ∈ s.release, ¬IsInfinite x := by
  have hnone : ∀ {x : Float}, x ∉ (Option.none : Option Float) := fun h => nomatch h
  exact ⟨IsTame.release, fun hrelease =>
    ⟨fun _ h => absurd h hnone, fun _ h => absurd h hnone, fun _ h => absurd h hnone, hrelease⟩⟩

namespace Envelope

variable {e : Envelope Float}

instance : Decidable e.IsSane :=
  decidable_of_iff (IsTime e.attack ∧ IsTime e.decay ∧ IsLevel e.sustain ∧ IsTime e.release)
    ⟨fun ⟨attack, decay, sustain, release⟩ => ⟨attack, decay, sustain, release⟩,
      fun ⟨attack, decay, sustain, release⟩ => ⟨attack, decay, sustain, release⟩⟩

/-- Settings leave an envelope that can be heard exactly if none of them comes through. -/
theorem isSane_withSettings_iff (h : e.IsSane) (s : VoiceSettings) :
    (e.withSettings s).IsSane ↔ s.IsTame := by
  constructor
  · intro hsane
    exact ⟨(isTime_getD_iff h.attack).mp hsane.attack, (isTime_getD_iff h.decay).mp hsane.decay,
      (isLevel_getD_iff h.sustain).mp hsane.sustain, (isTime_getD_iff h.release).mp hsane.release⟩
  · intro htame
    exact ⟨(isTime_getD_iff h.attack).mpr htame.attack, (isTime_getD_iff h.decay).mpr htame.decay,
      (isLevel_getD_iff h.sustain).mpr htame.sustain, (isTime_getD_iff h.release).mpr htame.release⟩

/-- The envelopes of the built-in voices can be heard. -/
theorem isSane_of_builtIn :
    ∀ e ∈ [Patch.piano.envelope, Patch.lead.envelope, Patch.pad.envelope, Bass.standard.envelope],
      e.IsSane := by
  decide +kernel

end Envelope

theorem Pluck.isTime_ring (seed : UInt64) : IsTime (Pluck.standard seed).ring := by
  show IsTime 0.2
  decide +kernel

/-! ## Instruments -/

namespace Instrument

/-- Whether what an instrument is set to can be heard. -/
def IsSane : Instrument → Prop
  | patch _ p => p.envelope.IsSane
  | bass b => b.envelope.IsSane
  | pluck p => IsTime p.ring
  | drumKit _ => True

/-- The seconds for which an instrument goes on after a note, if a note's length counts at all. -/
def tail? : Instrument → Option Float
  | patch _ p => some p.envelope.release
  | bass b => some b.envelope.release
  | pluck p => some p.ring
  | drumKit _ => none

variable {i : Instrument} {tail : Float}

/-- What sounds at all sounds for the length of the note and the time for which the instrument goes on,
in whole frames. -/
theorem frames_of_tail (h : i.tail? = some tail) (e : NoteEvent) (sampleRate : Nat) (bpm : Float) :
    i.frames e sampleRate bpm
      = if i.sounds e sampleRate
        then Scalar.toNat ((e.duration.toSeconds bpm + tail) * Scalar.ofNat sampleRate) else 0 := by
  cases i with
  | patch | bass | pluck =>
    cases h
    rfl
  | drumKit bank => cases h

/-- A sound has the frames that it is to have. -/
theorem length_sound (i : Instrument) (e : NoteEvent) (sampleRate : Nat) (bpm : Float) :
    (i.sound e sampleRate bpm).length = i.frames e sampleRate bpm := by
  cases i with
  | patch | bass =>
    unfold sound frames sounds
    dsimp only
    cases pitches e with
    | nil => rfl
    | cons pitch rest => exact Mix.length_generate _ _ _
  | pluck p =>
    unfold sound frames sounds Pluck.sound
    dsimp only
    split
    · next hsilent =>
      refine (if_neg ?_).symm
      rw [hsilent]
      exact Bool.false_ne_true
    · next strings hsound =>
      rw [Mix.length_generate, if_pos]
      rwa [Bool.not_eq_true', List.isEmpty_eq_false_iff]
  | drumKit bank =>
    unfold sound frames sounds
    dsimp only
    split
    · next hnone => simp [hnone]
    · next recording hsome => simp [hsome]

theorem length_render (i : Instrument) (e : NoteEvent) (c : Conditions Float) :
    (i.render e c).length = i.frames e c.sampleRate c.bpm * c.channels := by
  rw [render, Mix.length_spread, length_sound]

end Instrument

/-! ## Frames -/

/-- A length takes some time at any tempo. -/
theorem isMeasure_toSeconds (t : Ticks) {bpm : Float} (hfinite : bpm.isFinite = true)
    (hpos : 0 < bpm) : IsMeasure (t.toSeconds bpm) := by
  obtain ⟨tempo, htempo, hbpm⟩ := exists_hasValue hfinite hpos
  have hcount : IsMeasure (Scalar.ofNat t.toNat) := (hasResult_ofNat t.count.toNat_lt).isMeasure
  have hbeats : IsMeasure (t.toBeats : Float) := hcount.div hasValue_perBeat (by norm_num)
  exact (hbeats.mul hasValue_sixty (by norm_num)).div hbpm htempo

namespace Router

variable {channel : String} {s : VoiceSettings} {seed : UInt64} {i : Instrument}

/-- A built-in voice can be heard with some settings exactly if none of those that it looks at comes
through; it goes on for some time in any case. -/
theorem isSane_of_pitched (h : pitched? channel s seed = some i) :
    (i.IsSane ↔ (s.heard channel).IsTame) ∧ ∃ tail, i.tail? = some tail ∧ IsMeasure tail := by
  have henvelope (e : Envelope Float) (he : e.IsSane) :
      ((e.withSettings s).IsSane ↔ s.IsTame)
        ∧ ∃ tail, some (e.withSettings s).release = some tail ∧ IsMeasure tail :=
    ⟨Envelope.isSane_withSettings_iff he s, _, rfl, isMeasure_getD he.release⟩
  unfold pitched? at h
  split at h <;> cases h
  · exact henvelope _ (Envelope.isSane_of_builtIn _ (by simp))
  · exact henvelope _ (Envelope.isSane_of_builtIn _ (by simp))
  · exact henvelope _ (Envelope.isSane_of_builtIn _ (by simp))
  · exact henvelope _ (Envelope.isSane_of_builtIn _ (by simp))
  · exact ⟨(isTime_getD_iff (Pluck.isTime_ring seed)).trans s.isTame_heard_pluck.symm,
      _, rfl, isMeasure_getD (Pluck.isTime_ring seed)⟩

/-- What a built-in voice sounds with a song's settings.  It can be heard exactly if no infinite time
and no level that is not a number has been set for it.  The frames asked for a note that it finds
something to sound in are those that fit into the length of the note and the time for which the voice
goes on, as long as they are fewer than a word can count; from there on, and always for an infinite time,
the word is full.  A note that can be played has as many frames as are asked for. -/
theorem frames_of_pitched (h : pitched? channel s seed = some i) (e : NoteEvent)
    (c : Conditions Float) (hrate : c.sampleRate < 2 ^ 32) (hfinite : c.bpm.isFinite = true)
    (hpos : 0 < c.bpm) :
    (i.IsSane ↔ (s.heard channel).IsTame)
      ∧ ∃ tail, i.tail? = some tail ∧
        let product := (e.duration.toSeconds c.bpm + tail) * Scalar.ofNat c.sampleRate
        i.frames e c.sampleRate c.bpm = (if i.sounds e c.sampleRate then Scalar.toNat product else 0)
          ∧ (i.canPlay e c.sampleRate c.channels c.bpm = true →
            (i.render e c).length = i.frames e c.sampleRate c.bpm * c.channels)
          ∧ (product.isFinite = true → ∃ v, HasValue product v
            ∧ (v < 2 ^ 64 ∧ Scalar.toNat product = ⌊v⌋₊ ∧ Scalar.toNat product ≠ 2 ^ 64 - 1
              ∨ 2 ^ 64 ≤ v ∧ Scalar.toNat product = 2 ^ 64 - 1))
          ∧ (IsInfinite tail → 0 < c.sampleRate → Scalar.toNat product = 2 ^ 64 - 1) := by
  obtain ⟨hsane, tail, htail, hmeasure⟩ := isSane_of_pitched h
  have hduration := isMeasure_toSeconds e.duration hfinite hpos
  have hrateValue := hasValue_ofNat (hrate.trans (by decide : 2 ^ 32 < 2 ^ 53))
  refine ⟨hsane, tail, htail, Instrument.frames_of_tail htail e _ _,
    fun _ => Instrument.length_render i e c, fun hproduct => ?_, fun hinfinite hsome => ?_⟩
  · obtain ⟨v, hv⟩ := (hduration.add hmeasure).exists_hasValue_mul hrateValue hproduct
    exact ⟨v, hv, hv.toNat_cases⟩
  · have hsum := hduration.add_infinite hinfinite
    exact (hsum.mul hrateValue (by exact_mod_cast hsome)).toNat

/-- A beat that is played on a channel. -/
def beatOf (channel : String) : NoteEvent :=
  { notes := [NoteEvent.strokePitch], beat := .zero, duration := .beat, lineIndex := 0, tokenIndex := 0,
    soft := false, instrument := channel }

/-- A level that is too high is brought down; half a second of a lead that goes on for one and a half
seconds more. -/
theorem frames_of_pitched_of_long_lead :
    ∃ s i, VoiceSettings.ofValue?
          (.mapping [(.text "sustain", .number (.float 1.75)), (.text "release", .number (.float 1.5))])
        = some s
      ∧ pitched? "lead" s 0 = some i ∧ i.IsSane
      ∧ (i.render (beatOf "lead") ⟨44100, 2, 120.0⟩).length = 88200 * 2 := by
  have htempo : (120.0 : Float).isFinite = true ∧ (0 : Float) < 120.0 := by decide +kernel
  let s : VoiceSettings := { VoiceSettings.none with sustain := some 1.75, release := some 1.5 }
  have htame : s.IsTame := by
    refine ⟨fun _ h => (nomatch h), fun _ h => (nomatch h), ?_, ?_⟩
    · rintro _ ⟨⟩ hnan
      exact hnan.not_isFinite (by decide +kernel)
    · rintro _ ⟨⟩ hinfinite
      exact hinfinite.not_isFinite (by decide +kernel)
  have hvoice : pitched? "lead" s 0 = some (.patch "lead" (Patch.lead.withSettings s)) := rfl
  obtain ⟨hsane, tail, htail, hframes, hlength, -⟩ := frames_of_pitched hvoice (beatOf "lead")
    ⟨44100, 2, 120.0⟩ (by decide) htempo.1 htempo.2
  cases htail
  refine ⟨s, _, rfl, hvoice, hsane.mpr htame, (hlength (by decide +kernel)).trans ?_⟩
  rw [hframes]
  decide +kernel

/-- What is not a number comes through as a level, and an infinite time as a time; a word cannot count
the frames that are asked for, and there is no room for them. -/
theorem piano_without_end_fills_word :
    ∃ level time s, Yaml.Value.ofPlain? ".nan" = some level ∧ Yaml.Value.ofPlain? ".inf" = some time
      ∧ VoiceSettings.ofValue? (.mapping [(.text "sustain", level), (.text "release", time)]) = some s
      ∧ ¬IsLevel (Patch.piano.withSettings s).envelope.sustain
      ∧ ¬IsTime (Patch.piano.withSettings s).envelope.release
      ∧ (Instrument.patch "piano" (Patch.piano.withSettings s)).frames (beatOf "piano") 44100 120.0
        = 2 ^ 64 - 1
      ∧ (Instrument.patch "piano" (Patch.piano.withSettings s)).canPlay (beatOf "piano") 44100 1 120.0
        = false := by
  exact ⟨_, _, _, rfl, rfl, rfl, by decide +kernel, by decide +kernel, by decide +kernel,
    by decide +kernel⟩

end Router

end Stave
