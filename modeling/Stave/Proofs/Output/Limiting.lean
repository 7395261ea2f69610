import Mathlib.Algebra.BigOperators.Ring.List
import Mathlib.Algebra.Ring.Nat
import Mathlib.Data.List.Infix
import Stave.Proofs.Mix.Frames
import Stave.Proofs.Output.Fifo
import Stave.Proofs.Playback.Agreement

/-!
# Limiting in pieces

A limiter goes over a stream frame by frame and keeps its factor in between, so it does not matter in
how many buffers whole frames of the stream come.  A player that is never stopped and always has enough
samples therefore gives the sound device what limiting the whole stream at once gives, however the
stream was cut up when it was sent and however it is cut up when it is played.  A rendering limits its
stream at once, so both make the same file.
-/

namespace Stave

/-! ## The limiter -/

namespace Limiter

variable {β : Type} [Scalar β]

/-- Behind whole frames the limiter goes on as they have left it. -/
theorem process_append (l : Limiter β) {channels : Nat} {stream : List β}
    (h : max channels 1 ∣ stream.length) (behind : List β) :
    l.process channels (stream ++ behind)
      = ((l.process channels stream).1
            ++ ((l.process channels stream).2.process channels behind).1,
          ((l.process channels stream).2.process channels behind).2) := by
  simp only [process, Mix.frames_append h, Mix.thread_append, List.flatten_append]

@[simp] theorem process_nil (l : Limiter β) (channels : Nat) : l.process channels [] = ([], l) := by
  rw [process, Mix.frames_nil]
  rfl

theorem length_process (l : Limiter β) (channels : Nat) (stream : List β) :
    (l.process channels stream).1.length = stream.length := by
  have hthread (frames : List (List β)) :
      (Mix.thread frame frames l).1.flatten.length = frames.flatten.length := by
    induction frames using List.reverseRecOn with
    | nil => rfl
    | append_singleton frames last ih =>
      rw [Mix.thread_concat, List.flatten_append, List.flatten_append, List.length_append, ih,
        List.length_append]
      simp [frame]
  have hwhole : (Mix.frames (max channels 1) stream).flatten = stream :=
    Mix.flatten_frames (by omega) stream
  show (Mix.thread frame (Mix.frames (max channels 1) stream) l).1.flatten.length = _
  rw [hthread, hwhole]

/-- The beginning of what is limited, up to the end of a frame, is limited by itself. -/
theorem take_process (l : Limiter β) {channels count : Nat} {stream : List β}
    (h : max channels 1 ∣ count) (hcount : count ≤ stream.length) :
    (l.process channels stream).1.take count = (l.process channels (stream.take count)).1 := by
  have hlength : (stream.take count).length = count := by
    rw [List.length_take, Nat.min_eq_left hcount]
  have happend := l.process_append (hlength.symm ▸ h) (stream.drop count)
  rw [List.take_append_drop] at happend
  rw [happend]
  exact List.take_left' ((length_process ..).trans hlength)

end Limiter

/-! ## Runs without a stop -/

/-- A queue in which no command waits is settled. -/
theorem Fifo.settled_eq_self {β : Type} [Scalar β] {q : Fifo β} (h : q.commands = []) :
    q.settled = q := by
  rw [settled, h]
  cases q
  cases h
  rfl

namespace Link

variable {β : Type}

/-- The samples that an action sends. -/
def Action.sent : Action β → List β
  | .push (.samples samples) => samples
  | .push .stop => []
  | .pull _ => []

/-- How many samples an action asks for. -/
def Action.wanted : Action β → Nat
  | .push _ => 0
  | .pull count => count

/-- What an answer gives the sound device. -/
def Answer.output : Answer β → List β
  | .pushed _ => []
  | .played output => output

/-- Whether a link is only sent samples and asked for whole frames, never for more than it was sent
before. -/
structure IsSteady (channels : Nat) (actions : List (Action β)) : Prop where
  unstopped : .push .stop ∉ actions
  whole : ∀ count, .pull count ∈ actions → max channels 1 ∣ count
  enough : ∀ begun, begun <+: actions →
    (begun.map Action.wanted).sum ≤ (begun.flatMap Action.sent).length

theorem IsSteady.of_append {channels : Nat} {actions more : List (Action β)}
    (h : IsSteady channels (actions ++ more)) : IsSteady channels actions where
  unstopped hmem := h.unstopped (List.mem_append_left _ hmem)
  whole count hmem := h.whole count (List.mem_append_left _ hmem)
  enough begun hbegun := h.enough begun (hbegun.trans (List.prefix_append actions more))

theorem IsSteady.dvd_wanted {channels : Nat} {actions : List (Action β)}
    (h : IsSteady channels actions) : max channels 1 ∣ (actions.map Action.wanted).sum := by
  refine List.dvd_sum fun wanted hmem => ?_
  obtain ⟨action, haction, rfl⟩ := List.mem_map.mp hmem
  cases action with
  | push command => exact Nat.dvd_zero _
  | pull count => exact h.whole count haction

theorem IsSteady.wanted_le {channels : Nat} {actions : List (Action β)} (h : IsSteady channels actions) :
    (actions.map Action.wanted).sum ≤ (actions.flatMap Action.sent).length :=
  h.enough actions (List.prefix_refl actions)

variable [Scalar β]

/-- What a queue has become after it has given the device a number of samples of a stream. -/
structure HasPlayed (limiter : Limiter β) (channels : Nat) (stream : List β) (count : Nat)
    (q : Fifo β) (outputs : List β) : Prop where
  outputs_eq : outputs = (limiter.process channels (stream.take count)).1
  limiter_eq : q.settled.limiter = (limiter.process channels (stream.take count)).2
  samples_eq : q.settled.samples = stream.drop count
  channels_eq : q.settled.channels = channels

theorem HasPlayed.push {limiter : Limiter β} {channels count : Nat} {stream outputs : List β}
    {q : Fifo β} (h : HasPlayed limiter channels stream count q outputs)
    (hcount : count ≤ stream.length) {samples : List β}
    (haccepted : (q.push (.samples samples)).1 = true) :
    HasPlayed limiter channels (stream ++ samples) count (q.push (.samples samples)).2 outputs := by
  have htake : (stream ++ samples).take count = stream.take count :=
    List.take_append_of_le_length hcount
  have hsettled := Fifo.settled_push haccepted
  constructor
  · rw [htake, h.outputs_eq]
  · rw [hsettled, htake]
    exact h.limiter_eq
  · rw [hsettled, List.drop_append_of_le_length hcount, ← h.samples_eq]
    rfl
  · rw [hsettled]
    exact h.channels_eq

/-- The limiter goes on where it was, since the samples before were whole frames. -/
theorem HasPlayed.pull {limiter : Limiter β} {channels count more : Nat} {stream outputs : List β}
    {q : Fifo β} (h : HasPlayed limiter channels stream count q outputs)
    (hwhole : max channels 1 ∣ count) (henough : count + more ≤ stream.length) :
    HasPlayed limiter channels stream (count + more) (q.pull more).2
      (outputs ++ (q.pull more).1) := by
  have hnext : q.settled.next more = (stream.drop count).take more := by
    rw [Fifo.next, h.samples_eq]
  have hlength : (q.settled.next more).length = more := by
    rw [hnext, List.length_take, List.length_drop]
    omega
  have hfull : q.settled.next more
        ++ List.replicate (more - (q.settled.next more).length) (Scalar.ofNat 0)
      = (stream.drop count).take more := by
    rw [hlength, Nat.sub_self, List.replicate_zero, List.append_nil, hnext]
  have htaken : (stream.take count).length = count := by
    rw [List.length_take]
    omega
  have hprocess := limiter.process_append (htaken.symm ▸ hwhole) ((stream.drop count).take more)
  rw [← List.take_add, ← h.limiter_eq] at hprocess
  have hpull : (q.pull more).1
        = (q.settled.limiter.process channels ((stream.drop count).take more)).1
      ∧ (q.pull more).2.limiter
        = (q.settled.limiter.process channels ((stream.drop count).take more)).2 := by
    rw [Fifo.pull, Fifo.play, hfull, h.channels_eq]
    exact ⟨rfl, rfl⟩
  have hnone : (q.pull more).2.settled = (q.pull more).2 := Fifo.settled_eq_self q.commands_settled
  constructor
  · rw [hprocess, hpull.1, h.outputs_eq]
  · rw [hnone, hpull.2, hprocess]
  · rw [hnone]
    show q.settled.samples.drop more = _
    rw [h.samples_eq, List.drop_drop]
  · rw [hnone]
    exact h.channels_eq

/-- A queue that has room for everything gives the device what it was sent, limited as one stream. -/
theorem hasPlayed_of_run {capacity channels : Nat} {limiter : Limiter β}
    {actions : List (Action β)} (h : IsSteady channels actions)
    (haccepted : .pushed false ∉
      (Mix.thread Fifo.act actions (Fifo.new capacity limiter channels)).1) :
    let run := Mix.thread Fifo.act actions (Fifo.new capacity limiter channels)
    HasPlayed limiter channels (actions.flatMap Action.sent) (actions.map Action.wanted).sum run.2
      (run.1.flatMap Answer.output) := by
  intro run
  induction actions using List.reverseRecOn with
  | nil =>
    have hnothing := limiter.process_nil channels
    exact ⟨(congrArg Prod.fst hnothing).symm, (congrArg Prod.snd hnothing).symm, rfl, rfl⟩
  | append_singleton actions action ih =>
    have hle := h.of_append.wanted_le
    have hall := h.wanted_le
    simp only [run, Mix.thread_concat, List.flatMap_append, List.flatMap_singleton, List.map_append,
      List.sum_append, List.mem_append, not_or] at haccepted ⊢
    have hbefore := ih h.of_append haccepted.1
    cases action with
    | push command =>
      cases command with
      | stop => exact absurd (List.mem_append_right _ List.mem_cons_self) h.unstopped
      | samples samples =>
        have hroom : (((Mix.thread Fifo.act actions (Fifo.new capacity limiter channels)).2.push
            (.samples samples)).1) = true := by
          by_contra hfull
          exact haccepted.2 (by simp [Fifo.act, Bool.eq_false_iff.mpr hfull])
        simpa [Fifo.act, Action.wanted, Action.sent, Answer.output] using hbefore.push hle hroom
    | pull count =>
      have henough : (actions.map Action.wanted).sum + count ≤ (actions.flatMap Action.sent).length := by
        simpa [Action.wanted, Action.sent] using hall
      simpa [Fifo.act, Action.wanted, Action.sent, Answer.output] using
        hbefore.pull h.of_append.dvd_wanted henough

/-- A link to a player that is never stopped and always has enough samples gives the device what
limiting the whole stream once gives, however whole frames of it are asked for and however it was sent.
When the stream is that of a rendering and all of it has been played, the device has been given what the
rendering's file holds. -/
theorem outputs_of_steady_run (settings : AudioSettings) (capacity : Nat)
    {actions : List (Action Float32)} (hsteady : IsSteady settings.channels actions)
    (haccepted : .pushed false ∉ (Mix.thread act actions
      (new capacity (Player.new (Limiter.standard settings.sampleRate) settings.channels))).1) :
    let limiter := Limiter.standard settings.sampleRate
    let run := Mix.thread act actions (new capacity (Player.new limiter settings.channels))
    let stream := actions.flatMap Action.sent
    let played := (actions.map Action.wanted).sum
    let outputs := run.1.flatMap Answer.output
    outputs = (limiter.process settings.channels stream).1.take played
      ∧ (played = stream.length → outputs = (limiter.process settings.channels stream).1)
      ∧ ∀ composition registry bpm volumes voices source r,
          Rendering.ofComposition composition registry bpm volumes voices settings source = .ok r →
          ∃ sound,
            Rendering.unlimited
                (Preparation.ofComposition composition registry volumes voices settings source) bpm
                settings r.frames = .ok sound
              ∧ (stream = sound → played = stream.length →
                Wav.encode outputs settings.sampleRate settings.channels = .ok r.file) := by
  intro limiter run stream played outputs
  have hrun := (answers_of_run capacity settings.channels limiter actions).1
  have hplayed := (hasPlayed_of_run hsteady (hrun ▸ haccepted)).outputs_eq
  rw [← hrun] at hplayed
  have hfirst : outputs = (limiter.process settings.channels stream).1.take played :=
    hplayed.trans (limiter.take_process hsteady.dvd_wanted hsteady.wanted_le).symm
  have hall (hend : played = stream.length) :
      outputs = (limiter.process settings.channels stream).1 := by
    rw [hfirst, hend, ← limiter.length_process settings.channels stream, List.take_length]
  refine ⟨hfirst, hall, fun composition registry bpm volumes voices source r hr => ?_⟩
  obtain ⟨-, -, -, sound, hsound, hfile⟩ := Rendering.ofComposition_eq_ok hr
  refine ⟨sound, hsound, fun hstream hend => ?_⟩
  rw [hall hend, hstream]
  exact hfile

/-- Two stereo frames that are sent in three uneven pieces and played one after the other. -/
theorem outputs_of_steady_run_of_uneven_pieces :
    let settings : AudioSettings :=
      { sampleRate := 8, channels := 2, blockSize := 3, tail := 0.5, seed := 1 }
    let limiter := Limiter.standard settings.sampleRate
    let actions : List (Action Float32) :=
      [.push (.samples [0.5]), .push (.samples [2.0, 1.0]), .pull 2, .push (.samples [-1.5]), .pull 2]
    let run := Mix.thread act actions (new 2 (Player.new limiter settings.channels))
    run.1.flatMap Answer.output = (limiter.process settings.channels [0.5, 2.0, 1.0, -1.5]).1 := by
  intro settings limiter actions run
  have henough : ∀ begun ∈ actions.inits,
      (begun.map Action.wanted).sum ≤ (begun.flatMap Action.sent).length := by decide +kernel
  have hsteady : IsSteady settings.channels actions :=
    { unstopped := by simp [actions]
      whole := by simp [actions, settings]
      enough := fun begun hbegun => henough begun ((List.mem_inits _ _).mpr hbegun) }
  have haccepted : .pushed false ∉ run.1 := by
    rw [(answers_of_run 2 settings.channels limiter actions).1]
    simp [actions, Mix.thread, Fifo.act, Fifo.push, Fifo.new, Fifo.pull, Fifo.settled, Fifo.obey,
      Fifo.play]
  exact (outputs_of_steady_run settings 2 hsteady haccepted).2.1 rfl

end Link

end Stave
