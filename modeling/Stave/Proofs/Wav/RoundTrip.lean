import Mathlib.Tactic.Linarith
import Mathlib.Tactic.Ring
import Stave.Proofs.Mix.Frames
import Stave.Proofs.Wav.Bytes
import Stave.Sample.Loader
import Stave.Wav.Encode

/-!
# Files that are read back

A file that was written is read as the sound that it was written for, mixed down to one channel, in the
plain form as well as in the extensible one.  All that is lost is what rounding to sixteen bits loses.
-/

namespace Stave

namespace Wav

/-! ## The format -/

/-- Sounds whose measures fit into the fields of a file. -/
structure Fits (sampleRate channels : Nat) : Prop where
  some_channel : 1 ≤ channels
  some_frame : 1 ≤ sampleRate
  frame_lt : 2 * channels < 2 ^ 16
  second_lt : 2 * channels * sampleRate < 2 ^ 32

/-- The format that sound is written in. -/
def written (sampleRate channels : Nat) : Format :=
  { channels, sampleRate, container := 2, bits := 16, coding := .integer }

/-- The fields that both forms of a format begin with. -/
def sharedFields (code sampleRate channels : Nat) (behind : List UInt8) : List UInt8 :=
  bytes 2 code ++ (bytes 2 channels ++ (bytes 4 sampleRate ++ (bytes 4 (2 * channels * sampleRate)
    ++ (bytes 2 (2 * channels) ++ (bytes 2 16 ++ behind)))))

/-- What a format chunk says. -/
def formatBody (sampleRate channels : Nat) (behind : List UInt8) : List UInt8 :=
  if channels ≤ 2 then sharedFields 1 sampleRate channels behind
  else sharedFields 0xfffe sampleRate channels (bytes 2 22 ++ (bytes 2 16
    ++ (bytes 4 (loudspeakers channels) ++ (Coding.integer.identifier ++ behind))))

/-- How many bytes a format chunk says it has. -/
def formatSize (channels : Nat) : Nat := if channels ≤ 2 then 16 else 40

theorem Fits.formatChunk_append {sampleRate channels : Nat} (h : Fits sampleRate channels)
    (behind : List UInt8) :
    formatChunk sampleRate channels ++ behind
      = tag "fmt " ++ (bytes 4 (formatSize channels) ++ formatBody sampleRate channels behind) := by
  have hsecond : byteRate sampleRate channels = 2 * channels * sampleRate := by
    rw [byteRate, show sampleRate * channels * 2 = 2 * channels * sampleRate by ring]
    exact Nat.mod_eq_of_lt h.second_lt
  have hframe : frameBytes sampleRate channels = 2 * channels := by
    rw [frameBytes, hsecond, Nat.mul_div_cancel _ h.some_frame]
  rw [formatChunk, formatSize, formatBody, hsecond, hframe]
  split <;> simp only [sharedFields, List.append_assoc]

theorem length_sharedFields (code sampleRate channels : Nat) (behind : List UInt8) :
    (sharedFields code sampleRate channels behind).length = 16 + behind.length := by
  simp only [sharedFields, List.length_append, length_bytes]
  omega

theorem length_formatBody (sampleRate channels : Nat) (behind : List UInt8) :
    (formatBody sampleRate channels behind).length = formatSize channels + behind.length := by
  have hidentifier : Coding.integer.identifier.length = 16 := rfl
  rw [formatBody, formatSize]
  split
  · rw [length_sharedFields]
  · simp only [length_sharedFields, List.length_append, length_bytes, hidentifier]
    omega

theorem drop_formatBody (sampleRate channels : Nat) (behind : List UInt8) :
    (formatBody sampleRate channels behind).drop (formatSize channels) = behind := by
  rw [formatBody, formatSize]
  split <;> simp [sharedFields, drop_bytes_append, Coding.identifier, identifierTail]

/-- What stands in the shared fields. -/
theorem Fits.field_sharedFields {sampleRate channels code : Nat} (h : Fits sampleRate channels)
    (hcode : code < 2 ^ 16) (behind : List UInt8) :
    let data := sharedFields code sampleRate channels behind
    field 0 2 data = code ∧ field 2 2 data = channels ∧ field 4 4 data = sampleRate
      ∧ field 8 4 data = 2 * channels * sampleRate ∧ field 12 2 data = 2 * channels
      ∧ field 14 2 data = 16 := by
  intro data
  have hchannels := h.some_channel
  have hframe := h.frame_lt
  have hsecond : 2 * channels * sampleRate < 256 ^ 4 := h.second_lt
  have hrate : sampleRate < 256 ^ 4 := by nlinarith
  simp (disch := first | exact hsecond | omega) [data, sharedFields, field_behind, field_first]

/-- The reader has no objection to what the shared fields say. -/
theorem Fits.ofChunk_sharedFields {sampleRate channels size : Nat} (h : Fits sampleRate channels)
    (hsize : 16 ≤ size) (behind : List UInt8) :
    let plain := sharedFields 1 sampleRate channels behind
    let extensible := sharedFields 0xfffe sampleRate channels behind
    Format.ofChunk size plain = Format.readInteger size plain (written sampleRate channels)
      ∧ Format.ofChunk size extensible
        = Format.readExtensible size extensible (written sampleRate channels) := by
  intro plain extensible
  have hchannels : channels ≠ 0 := Nat.ne_of_gt h.some_channel
  have hcontainer : 2 * channels / channels = 2 := Nat.mul_div_cancel 2 h.some_channel
  have hplain := h.field_sharedFields (show 1 < 2 ^ 16 by decide) behind
  have hextensible := h.field_sharedFields (show 0xfffe < 2 ^ 16 by decide) behind
  constructor
  · simp [Format.ofChunk, Format.refuse, Format.need, plain, hplain, length_sharedFields, hchannels,
      hcontainer, Nat.not_lt.mpr hsize, written]
  · simp [Format.ofChunk, Format.refuse, Format.need, extensible, hextensible, length_sharedFields,
      hchannels, hcontainer, Nat.not_lt.mpr hsize, written]

theorem readExtensible_sharedFields (sampleRate channels : Nat) (behind : List UInt8) :
    Format.readExtensible 40 (sharedFields 0xfffe sampleRate channels (bytes 2 22 ++ (bytes 2 16
        ++ (bytes 4 (loudspeakers channels) ++ (Coding.integer.identifier ++ behind)))))
        (written sampleRate channels)
      = .ok (written sampleRate channels, 40) := by
  generalize hdata : sharedFields 0xfffe sampleRate channels _ = data
  have hwidth : Coding.integer.identifier.length = 16 := rfl
  have hlength : 40 ≤ data.length := by
    simp only [← hdata, length_sharedFields, List.length_append, length_bytes, hwidth]
    omega
  have hextension : field 16 2 data = 22 ∧ field 18 2 data = 16 := by
    simp [← hdata, sharedFields, field_behind, field_first]
  have hidentifier : (data.drop 24).take 16 = Coding.integer.identifier := by
    have hdrop : data.drop 24 = Coding.integer.identifier ++ behind := by
      simp [← hdata, sharedFields, drop_bytes_append]
    rw [hdrop, List.take_left' hwidth]
  simp [Format.readExtensible, Format.refuse, Format.need, hextension, hidentifier, written,
    Nat.not_lt.mpr hlength, Nat.not_lt.mpr (Nat.le_trans (by decide : 18 ≤ 40) hlength)]
  rfl

/-- The reader reads the format chunk of a file to its end. -/
theorem Fits.ofChunk_formatBody {sampleRate channels : Nat} (h : Fits sampleRate channels)
    (behind : List UInt8) :
    Format.ofChunk (formatSize channels) (formatBody sampleRate channels behind)
      = .ok (written sampleRate channels, formatSize channels) := by
  rw [formatBody, formatSize]
  by_cases hfew : channels ≤ 2
  · rw [if_pos hfew, if_pos hfew, (h.ofChunk_sharedFields (Nat.le_refl 16) _).1]
    rfl
  · rw [if_neg hfew, if_neg hfew, (h.ofChunk_sharedFields (by decide) _).2,
      readExtensible_sharedFields]

/-! ## The chunks -/

/-- The name, the size and the contents of a chunk. -/
theorem chunk_head (name : String) (hname : name.length = 4) {size : Nat} (hsize : size < 256 ^ 4)
    (behind : List UInt8) :
    let data := tag name ++ (bytes 4 size ++ behind)
    ¬data.length < 8 ∧ data.take 4 = tag name ∧ field 4 4 data = size ∧ data.drop 8 = behind := by
  intro data
  have htag : (tag name).length = 4 := (length_tag name).trans hname
  have hrest : data.drop 4 = bytes 4 size ++ behind := List.drop_left' htag
  refine ⟨?_, List.take_left' htag, ?_, ?_⟩
  · simp only [data, List.length_append, htag, length_bytes]
    omega
  · rw [← field_first hsize behind, ← hrest, field, field, List.drop_zero]
  · rw [show (8 : Nat) = 4 + 4 from rfl, ← List.drop_drop, hrest, drop_bytes_append (Nat.le_refl 4)]
    rfl

theorem Fits.findSamples_eq {sampleRate channels size : Nat} (h : Fits sampleRate channels)
    (hsize : size < 256 ^ 4) (behind : List UInt8) :
    findSamples none (formatChunk sampleRate channels ++ (tag "data" ++ (bytes 4 size ++ behind)))
      = .ok (written sampleRate channels, size, behind) := by
  have hformat : formatSize channels < 256 ^ 4 := by
    rw [formatSize]
    split <;> decide
  have hnames : tag "data" ≠ tag "fmt " ∧ tag "data" ≠ tag "fact" := by decide
  obtain ⟨hlong, hname, hfield, hrest⟩ := chunk_head "fmt " rfl hformat
    (formatBody sampleRate channels (tag "data" ++ (bytes 4 size ++ behind)))
  obtain ⟨hlong', hname', hfield', hrest'⟩ := chunk_head "data" rfl hsize behind
  rw [h.formatChunk_append, findSamples, dif_neg hlong, hname, if_pos rfl, hfield, hrest,
    h.ofChunk_formatBody]
  dsimp only
  rw [drop_formatBody, findSamples, dif_neg hlong', hname', if_neg hnames.1, if_neg hnames.2,
    if_pos rfl, hfield', hrest']
  rfl

/-- The header of a file says what was written. -/
theorem Fits.header_eq {sampleRate channels count : Nat} (h : Fits sampleRate channels)
    (hcount : count * 2 < 256 ^ 4) (hwhole : channels ∣ count) (behind : List UInt8) :
    header (preamble sampleRate channels (count * 2) ++ behind)
      = .ok (written sampleRate channels, count, behind) := by
  let chunks := formatChunk sampleRate channels ++ (tag "data" ++ (bytes 4 (count * 2) ++ behind))
  let size := 4 + (formatChunk sampleRate channels).length + 8 + count * 2
  have hfile : preamble sampleRate channels (count * 2) ++ behind
      = tag "RIFF" ++ (bytes 4 size ++ (tag "WAVE" ++ chunks)) := by
    simp only [preamble, chunks, size, List.append_assoc]
  have hriff : (tag "RIFF").length = 4 := rfl
  have hwave : (tag "WAVE").length = 4 := rfl
  generalize hdata : tag "RIFF" ++ (bytes 4 size ++ (tag "WAVE" ++ chunks)) = data at hfile
  have hlength : 12 ≤ data.length := by
    simp only [← hdata, List.length_append, length_bytes, hriff, hwave]
    omega
  have hfirst : data.take 4 = tag "RIFF" := by
    rw [← hdata, List.take_left' hriff]
  have hbehind : data.drop 8 = tag "WAVE" ++ chunks := by
    rw [← hdata, show (8 : Nat) = 4 + 4 from rfl, ← List.drop_drop, List.drop_left' hriff,
      List.drop_left' (length_bytes 4 size)]
  have hsecond : (data.drop 8).take 4 = tag "WAVE" := by
    rw [hbehind, List.take_left' hwave]
  have hchunks : data.drop 12 = chunks := by
    rw [show (12 : Nat) = 8 + 4 from rfl, ← List.drop_drop, hbehind, List.drop_left' hwave]
  have hframes : count % channels = 0 := Nat.mod_eq_zero_of_dvd hwhole
  rw [hfile]
  have hneeded : Format.need 4 data = pure () ∧ Format.need 12 data = pure () :=
    ⟨if_neg (by omega), if_neg (by omega)⟩
  have hfound : findSamples none chunks = pure (written sampleRate channels, count * 2, behind) :=
    h.findSamples_eq hcount behind
  simp [header, hneeded, Format.refuse, hfirst, hsecond, hchunks, hfound, written, hframes]
  rfl

/-! ## The samples -/

/-- What is read of a sample: the number that it was rounded to, between minus one and one. -/
def restored (sample : Float32) : Float32 := Scalar.ofInt (quantize sample).toInt / 32768.0

/-- A number with a sign is read back from its two bytes. -/
theorem wholeValue_bytes (q : Int16) : wholeValue 2 16 (bytes 2 q.toUInt16.toNat) = q.toInt := by
  have hlt := q.toUInt16.toNat_lt
  have hnumber : number (bytes 2 q.toUInt16.toNat) = q.toUInt16.toNat := by
    rw [number_bytes]
    exact Nat.mod_eq_of_lt (by omega)
  rw [wholeValue, hnumber, if_neg (by decide)]
  exact (BitVec.toInt_eq_toNat_bmod q.toBitVec).symm

theorem integerSample_bytes (sample : Float32) :
    integerSample 2 16 (bytes 2 (quantize sample).toUInt16.toNat) = restored sample := by
  have hscale : Scalar.ofNat (Nat.pow 2 (16 - 1)) = (32768.0 : Float32) := by decide +kernel
  rw [integerSample, wholeValue_bytes, hscale, restored]

/-- The samples of a file. -/
def sampleBytes (sound : List Float32) : List UInt8 :=
  sound.flatMap fun s => bytes 2 (quantize s).toUInt16.toNat

theorem length_sampleBytes (sound : List Float32) : (sampleBytes sound).length = sound.length * 2 := by
  simp [sampleBytes, List.length_flatMap, List.map_const']

theorem samples_sampleBytes (sampleRate channels : Nat) (sound : List Float32) :
    samples (written sampleRate channels) sound.length (sampleBytes sound)
      = .ok (sound.map restored) := by
  have hlength := length_sampleBytes sound
  have hneeded : Format.need (sound.length * 2) (sampleBytes sound) = pure () := by
    rw [Format.need, hlength, if_neg (Nat.lt_irrefl _)]
  have htake : (sampleBytes sound).take (sound.length * 2) = sampleBytes sound := by
    rw [← hlength, List.take_length]
  have hframes : Mix.frames 2 (sampleBytes sound)
      = sound.map fun s => bytes 2 (quantize s).toUInt16.toNat :=
    Mix.frames_flatMap (by decide) (fun s => length_bytes 2 _) sound
  have hread : (sound.map fun s => bytes 2 (quantize s).toUInt16.toNat).map (integerSample 2 16)
      = sound.map restored := by
    rw [List.map_map]
    exact List.map_congr_left fun s _ => integerSample_bytes s
  by_cases hnone : sound.length = 0
  · rw [List.eq_nil_of_length_eq_zero hnone]
    rfl
  · have hreader : sampleReader (written sampleRate channels) = pure (integerSample 2 16) := rfl
    have hcontainer : (written sampleRate channels).container = 2 := rfl
    rw [← hread, ← hframes, ← htake, samples, if_neg hnone, hreader, hcontainer]
    simp only [pure_bind, hneeded, htake]
    rfl

end Wav

/-! ## Files -/

namespace Wav

/-- Writing sound that fits makes a file of its header and two bytes for each sample. -/
theorem Fits.encode_eq {sampleRate channels : Nat} (h : Fits sampleRate channels)
    {sound : List Float32} (hwhole : channels ∣ sound.length) :
    encode sound sampleRate channels
      = .ok (preamble sampleRate channels (sound.length * 2) ++ sampleBytes sound) := by
  have hrate := h.some_frame
  have hchannels := h.some_channel
  rw [encode, if_neg (by omega), if_neg (by rw [Nat.mod_eq_zero_of_dvd hwhole]; simp)]
  rfl

theorem Fits.length_preamble {sampleRate channels : Nat} (h : Fits sampleRate channels) (size : Nat) :
    (preamble sampleRate channels size).length = if channels ≤ 2 then 44 else 68 := by
  have hformat := congrArg List.length (h.formatChunk_append [])
  have hlengths : "RIFF".length = 4 ∧ "WAVE".length = 4 ∧ "data".length = 4 ∧ "fmt ".length = 4 := by
    decide
  simp only [List.append_nil, List.length_append, length_tag, length_bytes, length_formatBody,
    List.length_nil, formatSize, hlengths] at hformat
  simp only [preamble, List.length_append, length_tag, length_bytes, hformat, hlengths]
  split <;> rfl

end Wav

namespace Recording

theorem ofWav_file {sampleRate channels : Nat} (h : Wav.Fits sampleRate channels)
    {sound : List Float32} (hsome : sound ≠ []) (hwhole : channels ∣ sound.length)
    (hsize : sound.length * 2 < 256 ^ 4) :
    ofWav (Wav.preamble sampleRate channels (sound.length * 2) ++ Wav.sampleBytes sound) sampleRate
      = .ok ⟨(Mix.frames channels (sound.map Wav.restored)).map mean, sampleRate⟩ := by
  let format := Wav.written sampleRate channels
  have hheader : (Wav.header (Wav.preamble sampleRate channels (sound.length * 2)
      ++ Wav.sampleBytes sound)).mapError RecordingError.wav
        = pure (format, sound.length, Wav.sampleBytes sound) := by
    rw [h.header_eq hsize hwhole]
    rfl
  have hsamples : (Wav.samples format sound.length (Wav.sampleBytes sound)).mapError
      RecordingError.wav = pure (sound.map Wav.restored) := by
    rw [Wav.samples_sampleBytes]
    rfl
  have hdepth : (format.coding = .integer && (format.bits = 0 || 32 < format.bits)) = false := rfl
  have hfound : (sound.map Wav.restored).isEmpty = false := by
    rw [List.isEmpty_map, List.isEmpty_eq_false_iff]
    exact hsome
  have hrate : format.sampleRate = sampleRate := rfl
  simp only [ofWav, hheader, pure_bind, hdepth, hsamples, hfound, Bool.false_eq_true, if_false,
    hrate, if_true]
  rfl

/-- A frame is heard as the mean of its samples. -/
theorem getElem?_map_mean {channels : Nat} (hchannels : 1 ≤ channels) {sound : List Float32}
    (hwhole : channels ∣ sound.length) {i : Nat} (hi : i < sound.length / channels) :
    ((Mix.frames channels sound).map mean)[i]?
      = some (((sound.drop (i * channels)).take channels).foldl (· + ·) 0.0
        / Scalar.ofNat channels) := by
  obtain ⟨count, hcount⟩ := hwhole
  rw [hcount, Nat.mul_div_cancel_left count hchannels] at hi
  have hle : (i + 1) * channels ≤ count * channels := Nat.mul_le_mul_right channels hi
  rw [Nat.succ_mul, Nat.mul_comm count, ← hcount] at hle
  have hlength : ((sound.drop (i * channels)).take channels).length = channels := by
    rw [List.length_take, List.length_drop]
    omega
  rw [List.getElem?_map, Mix.getElem?_frames hchannels, if_pos (by omega), Option.map_some, mean,
    hlength]

/-- Sound in whole frames whose measures fit into a file is written as a file of its header and two
bytes for each sample.  Reading it at the same rate gives for each frame the mean of its samples, each
of which has been rounded to sixteen bits. -/
theorem ofWav_encode {sampleRate channels : Nat} (h : Wav.Fits sampleRate channels)
    {sound : List Float32} (hsome : sound ≠ []) (hwhole : channels ∣ sound.length)
    (hsize : (if channels ≤ 2 then 44 else 68) + 2 * sound.length < 2 ^ 32) :
    ∃ file r, Wav.encode sound sampleRate channels = .ok file
      ∧ file.length = (if channels ≤ 2 then 44 else 68) + 2 * sound.length
      ∧ ofWav file sampleRate = .ok r
      ∧ r.sampleRate = sampleRate
      ∧ r.samples.length = sound.length / channels
      ∧ ∀ i < sound.length / channels,
        let frame := (sound.drop (i * channels)).take channels
        r.samples[i]? = some ((frame.map Wav.restored).foldl (· + ·) 0.0 / Scalar.ofNat channels) := by
  have hbytes : sound.length * 2 < 256 ^ 4 := by omega
  have hrestored : channels ∣ (sound.map Wav.restored).length := by rwa [List.length_map]
  refine ⟨_, _, h.encode_eq hwhole, ?_, ofWav_file h hsome hwhole hbytes, rfl, ?_, fun i hi => ?_⟩
  · rw [List.length_append, h.length_preamble, Wav.length_sampleBytes, Nat.mul_comm sound.length]
  · rw [List.length_map, Mix.length_frames h.some_channel hrestored, List.length_map]
  · have hframe := getElem?_map_mean h.some_channel hrestored (i := i) (by rwa [List.length_map])
    rwa [← List.map_drop, ← List.map_take] at hframe

/-- Two frames for three loudspeakers, in the extensible form. -/
theorem ofWav_encode_of_two_frames :
    ∃ file r, Wav.encode [0.5, -0.25, 2.0, 0.0, 0.125, -1.0] 8 3 = .ok file
      ∧ file.length = 80
      ∧ ofWav file 8 = .ok r
      ∧ r.samples.length = 2
      ∧ r.samples[1]? = some (([0.0, 0.125, -1.0].map Wav.restored).foldl (· + ·) 0.0
        / Scalar.ofNat 3) := by
  have hfits : Wav.Fits 8 3 := ⟨by decide, by decide, by decide, by decide⟩
  have hsome : ([0.5, -0.25, 2.0, 0.0, 0.125, -1.0] : List Float32) ≠ [] := by simp
  obtain ⟨file, r, hencode, hlength, hread, -, hframes, hsamples⟩ :=
    ofWav_encode hfits hsome (by decide) (by decide)
  exact ⟨file, r, hencode, hlength, hread, hframes, hsamples 1 (by decide)⟩

end Recording

end Stave
