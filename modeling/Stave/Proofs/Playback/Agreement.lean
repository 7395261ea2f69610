import Stave.Proofs.Playback.Pumping

/-!
# Live and offline playback

A composition that can be rendered can be played live, and both give the same sound.  What a recorder
has been sent and the rendering's sound before the limiter are beginnings of one stream, and when the
session says that there is no more to come, the rest of that stream is silent.  So what the recorder
has, once it is enough or the session has ended, makes the same file.
-/

namespace Stave

open Session

/-- The file that is written for some sound. -/
def AudioSettings.fileOf (settings : AudioSettings) (sound : List Float32) :
    Except Wav.Fault (List UInt8) :=
  Wav.encode ((Limiter.standard settings.sampleRate).process settings.channels sound).1
    settings.sampleRate settings.channels

namespace Rendering

/-- As many blocks as a rendering has fill all of its frames. -/
theorem le_blockCount_mul {total blockSamples : Nat} (h : 0 < blockSamples) :
    total ≤ (total + blockSamples - 1) / blockSamples * blockSamples := by
  have hdiv := Nat.lt_div_mul_add (a := total + blockSamples - 1) h
  omega

/-- A block of a rendering that can be made can be played. -/
theorem canPlay_nextBlock {s : Session Captured} (hplaying : s.scheduler.transport.playing = true)
    {enough count : Nat} (hcount : count < enough)
    (h : ∀ b ∈ blocks s.router s.scheduler enough, canPlay s.router b = true) :
    canPlay s.router (s.sent count).nextBlock = true := by
  obtain ⟨more, rfl⟩ := Nat.exists_eq_add_of_le (Nat.succ_le_of_lt hcount)
  have hafter : (s.sent count).scheduler.transport.playing = true :=
    Scheduler.playing_after hplaying count
  refine h _ ((isPrefix_blocks s.router s.scheduler (count + 1) more).subset ?_)
  rw [blocks_succ]
  refine List.mem_append_right _ ?_
  rw [show ((s.scheduler.after s.router.render count).nextBlock s.router.render).1 = _ from
    fst_nextBlock hafter]
  simp

/-- What a recorder has been sent by a playing session agrees with as much sound of its scheduler as
can be played, and once the session has ended there is nothing more in it. -/
theorem captured_agrees {live : Session Captured}
    (hplaying : live.scheduler.transport.playing = true) (hreserve : 0 < live.reserve)
    {total enough : Nat} (henough : total ≤ enough * live.scheduler.blockSamples)
    (hplay : ∀ b ∈ blocks live.router live.scheduler enough, canPlay live.router b = true)
    (pumps : Nat) :
    let buffer := (heard live.router live.scheduler enough).take total
    let ended := ∃ k < pumps, live.answer Captured.sink k = .ok false
    ∃ heard, (live.pumped Captured.sink pumps).sink.samples = live.sink.samples ++ heard
      ∧ (heard <+: buffer ∨ buffer <+: heard)
      ∧ (ended ∨ total ≤ heard.length → Mix.takeOrSilence total heard = buffer)
      ∧ (total ≤ pumps * live.scheduler.blockSamples → ended ∨ total ≤ heard.length) := by
  intro buffer ended
  obtain ⟨count, -, hsent, hstanding⟩ := exists_standing hplaying hreserve pumps
  refine ⟨heard live.router live.scheduler count, hstanding.samples_eq, ?_, fun hdone => ?_,
    fun hpumps => ?_⟩
  · -- both are beginnings of what is heard of enough blocks for either
    have hcount := isPrefix_heard live.router live.scheduler count enough
    have hbuffer := (List.take_prefix total _).trans
      (isPrefix_heard live.router live.scheduler enough count)
    rw [Nat.add_comm] at hbuffer
    exact List.prefix_or_prefix_of_prefix hcount hbuffer
  · refine takeOrSilence_heard hplaying henough ?_
    rw [length_heard hplaying] at hdone
    rcases hdone with ⟨k, hk, hanswer⟩ | hfull
    · -- only a session whose sounds have ended gives this answer
      cases hstanding with
      | sending session => cases hanswer.symm.trans (hsent k hk)
      | ended lt finished session answers =>
        exact Or.inr (Scheduler.isSpent_of_isFinished (Scheduler.playing_after hplaying count)
          finished)
      | refused lt unfinished unplayable session answers =>
        rcases Nat.lt_or_ge k count with hlt | hge
        · cases hanswer.symm.trans (hsent k hlt)
        · cases hanswer.symm.trans (answers k hk hge)
    · exact Or.inl hfull
  · rw [length_heard hplaying]
    cases hstanding with
    | sending session => exact Or.inr hpumps
    | ended lt finished session answers =>
      exact Or.inl ⟨count, lt, answers count lt (Nat.le_refl count)⟩
    | refused lt unfinished unplayable session answers =>
      -- the blocks of the rendering can all be played
      have hge : enough ≤ count := by
        by_contra hlt
        rw [canPlay_nextBlock hplaying (Nat.not_le.mp hlt) hplay] at unplayable
        cases unplayable
      exact Or.inr (Nat.le_trans henough (Nat.mul_le_mul_right _ hge))

/-- A composition that can be rendered can be played once by any session with the same settings, with
the same channels left silent.  After any number of pumps into a recorder, what it has been sent and
the rendering's sound before the limiter agree as far as both go.  Once the session has answered that
there is no more to come, the rest of the rendering is silent; then, or when enough has been sent,
what has been sent makes the same file, and enough pumps get that far. -/
theorem captured_agrees_with_rendering {settings : AudioSettings} {source : Source}
    {s : Session Captured} (hs : Reached Captured.sink settings source s)
    (hblockSize : 1 ≤ settings.blockSize) (hchannels : 1 ≤ settings.channels)
    {composition : Composition} {registry : Registry} {bpm : Float} {volumes : Named Float}
    {voices : Named VoiceSettings} {r : Rendering}
    (h : ofComposition composition registry bpm volumes voices settings source = .ok r) :
    ∃ started live buffer,
      s.start Captured.sink composition registry bpm false volumes voices = (.ok started, live)
        ∧ started.failed = r.failed
        ∧ unlimited (Preparation.ofComposition composition registry volumes voices settings source)
          bpm settings r.frames = .ok buffer
        ∧ settings.fileOf buffer = .ok r.file
        ∧ buffer.length = Mix.sampleCount r.frames settings.channels
        ∧ ∀ pumps, ∃ heard,
          let ended := ∃ k < pumps, live.answer Captured.sink k = .ok false
          (live.pumped Captured.sink pumps).sink.samples = s.sink.samples ++ heard
            ∧ (heard <+: buffer ∨ buffer <+: heard)
            ∧ (ended → ∀ i, heard.length ≤ i → i < buffer.length → buffer[i]? = some 0)
            ∧ (ended ∨ buffer.length ≤ heard.length →
              settings.fileOf (Mix.takeOrSilence buffer.length heard) = .ok r.file)
            ∧ (buffer.length ≤ pumps * (settings.blockSize * settings.channels) →
              ended ∨ buffer.length ≤ heard.length) := by
  obtain ⟨hempty, htempo, hfailed, buffer, hbuffer, hfile⟩ := ofComposition_eq_ok h
  have hstart := start_once hs.isSetUp registry volumes voices hempty htempo
  obtain ⟨hplay, hbufferEq⟩ := unlimited_eq_ok hbuffer
  generalize hprepared : Preparation.ofComposition composition registry volumes voices settings
    source = prepared at *
  let live : Session Captured :=
    { s with
      router := prepared.router, finish := composition.length
      scheduler := scheduler prepared.events bpm settings
      sink := { s.sink with stops := s.sink.stops + 1 } }
  have hsize : live.scheduler.blockSamples = settings.blockSize * settings.channels :=
    congrArg (· * settings.channels) (Nat.max_eq_left hblockSize)
  have hpos : 0 < live.scheduler.blockSamples := hsize ▸ Nat.mul_pos hblockSize hchannels
  have hreserve : 0 < live.reserve := by
    show 0 < s.settings.blockSize * s.settings.channels * 4
    rw [hs.isSetUp.settings_eq]
    omega
  have henough : Mix.sampleCount r.frames settings.channels ≤ _ * live.scheduler.blockSamples :=
    le_blockCount_mul hpos
  have hlength : buffer.length = Mix.sampleCount r.frames settings.channels := by
    rw [hbufferEq, List.length_take, length_heard rfl]
    exact Nat.min_eq_left henough
  refine ⟨_, live, buffer, hstart, hfailed.symm, hbuffer, hfile, hlength, fun pumps => ?_⟩
  obtain ⟨heard, hcaptured, hagree, hdone, hpumps⟩ :=
    captured_agrees (show live.scheduler.transport.playing = true from rfl) hreserve henough hplay
      pumps
  rw [show List.take _ _ = buffer from hbufferEq.symm] at hagree hdone
  rw [← hlength] at hdone hpumps
  rw [hsize] at hpumps
  refine ⟨heard, hcaptured, hagree, fun hended i hi hlt => ?_, fun h => ?_, hpumps⟩
  · rw [← hdone (Or.inl hended)]
    exact Mix.getElem?_takeOrSilence hi hlt
  · rw [hdone h]
    exact hfile

/-- A stroke and a recording that cannot be loaded, in a session that has played the same in a loop and
at another tempo: four pumps make the file of the rendering. -/
theorem captured_agrees_with_rendering_of_stroke :
    let text := "kick: x\nvox: file:///v.wav".toList
    let composition := (Composition.ofText text Registry.empty).1
    let registry := (Composition.ofText text Registry.empty).2
    let settings : AudioSettings :=
      { sampleRate := 8, channels := 2, blockSize := 3, tail := 0.5, seed := 1 }
    let source : Source := fun _ => .error (.unreachable "")
    let used := ((Session.new Captured.empty settings source).start Captured.sink composition registry
      90 true [] []).2
    let s := (used.feed Captured.sink).2
    ∃ r started live, ofComposition composition registry 60 [] [] settings source = .ok r
      ∧ r.frames = 12 ∧ r.failed = ["vox"]
      ∧ s.start Captured.sink composition registry 60 false [] [] = (.ok started, live)
      ∧ started.failed = ["vox"]
      ∧ ∃ heard, (live.pumped Captured.sink 4).sink.samples = s.sink.samples ++ heard
        ∧ settings.fileOf (Mix.takeOrSilence 24 heard) = .ok r.file := by
  intro text composition registry settings source used s
  have hs : Reached Captured.sink settings source s := .feed (.start (.new _) _ _ _ _ _ _)
  obtain ⟨r, h, hframes, hfailed⟩ : ∃ r,
      ofComposition composition registry 60 [] [] settings source = .ok r
        ∧ r.frames = 12 ∧ r.failed = ["vox"] := by
    have hmade : ((ofComposition composition registry 60 [] [] settings source).toOption.map fun r =>
        (r.frames, r.failed)) = some (12, ["vox"]) := by decide +kernel
    cases hr : ofComposition composition registry 60 [] [] settings source with
    | error e => simp [hr, Except.toOption] at hmade
    | ok r =>
      rw [hr] at hmade
      simpa [Except.toOption] using hmade
  obtain ⟨started, live, buffer, hstart, hsilent, -, -, hlength, hpumps⟩ :=
    captured_agrees_with_rendering hs (by decide) (by decide) h
  obtain ⟨heard, hcaptured, -, -, hdone, henough⟩ := hpumps 4
  rw [hframes] at hlength
  have htotal : buffer.length = 24 := hlength
  rw [htotal] at hdone henough
  exact ⟨r, started, live, h, hframes, hfailed, hstart, hsilent.trans hfailed, heard, hcaptured,
    hdone (henough (by decide))⟩

end Rendering

end Stave
