import Stave.Text.Blank

/-!
# The registry of channels

Nine instruments are built in.  Beside them stand the sample channels that the text declares, each
with the address of its sound file.  Names are compared without regard to the case of `A` to `Z`, and
a built-in name can be neither taken nor removed.
-/

namespace Stave

/-- What makes the sound of a channel. -/
inductive ChannelKind
  | pitched | percussion | sample
deriving DecidableEq, Repr

/-- How many sounds a channel can make at a time. -/
inductive Voicing
  | poly
  /-- One at most; of events that start together only the last one counts. -/
  | mono
deriving DecidableEq, Repr

/-- What is known about a channel. -/
structure Channel where
  kind : ChannelKind
  label : String
  voicing : Voicing
  /-- The address of the sound file of a sample channel. -/
  url : Option String
deriving DecidableEq, Repr

/-- Whether the channel plays its events as strokes. -/
def Channel.isStruck (c : Channel) : Bool :=
  match c.kind with
  | .pitched => false
  | .percussion => true
  | .sample => true

/-- A sample channel as the text declares it. -/
structure Declaration where
  name : String
  url : String
deriving DecidableEq, Repr, Inhabited

/-- The channel of a declared sample. -/
def Declaration.channel (d : Declaration) : Channel := ⟨.sample, d.name, .poly, some d.url⟩

namespace Registry

/-- The channel of a line that names none. -/
def defaultInstrument : String := "piano"

/-- The built-in instruments. -/
def builtins : List (String × Channel) :=
  [("piano", ⟨.pitched, "Piano", .poly, none⟩),
   ("lead", ⟨.pitched, "Lead", .mono, none⟩),
   ("bass", ⟨.pitched, "Bass", .mono, none⟩),
   ("pad", ⟨.pitched, "Pad", .poly, none⟩),
   ("pluck", ⟨.pitched, "Pluck", .poly, none⟩),
   ("kick", ⟨.percussion, "Kick", .poly, none⟩),
   ("snare", ⟨.percussion, "Snare", .poly, none⟩),
   ("hihat", ⟨.percussion, "Hi-hat", .poly, none⟩),
   ("clap", ⟨.percussion, "Clap", .poly, none⟩)]

/-- Whether the name, in any case, is built in. -/
def isBuiltin (name : String) : Bool := (builtins.lookup (Text.lowercase name)).isSome

end Registry

/-- The declaration of a name as channels are known by, and of an address. -/
def Declaration.keyed (name url : String) : Declaration := ⟨Text.lowercase name, url⟩

/-- What a registry can hold: the name is in lower case and not built in. -/
structure Declaration.IsSample (d : Declaration) : Prop where
  lower : ∃ name, d.name = Text.lowercase name
  foreign : Registry.builtins.lookup d.name = none

theorem Declaration.isSample_keyed {name : String} (h : ¬Registry.isBuiltin name = true)
    (url : String) : (keyed name url).IsSample where
  lower := ⟨name, rfl⟩
  foreign := Option.not_isSome_iff_eq_none.mp h

/-- The sample channels. -/
structure Registry where
  samples : List Declaration
  /-- They stand in the order of their names, and no name stands twice. -/
  ordered : samples.Pairwise fun d e => d.name < e.name
  isSample : ∀ d ∈ samples, d.IsSample
deriving DecidableEq, Repr

/-- How reconciling a registry with a text has changed it. -/
structure Changes where
  added : List String
  removed : List String
  /-- Names that point to another address now. -/
  changed : List String
  /-- Built-in names that the text tried to declare. -/
  rejected : List String
deriving DecidableEq, Repr

/-- Whether there is nothing to report. -/
def Changes.isEmpty (c : Changes) : Bool :=
  c.added.isEmpty && c.removed.isEmpty && c.changed.isEmpty && c.rejected.isEmpty

namespace Registry

/-- The registry without sample channels. -/
def empty : Registry := ⟨[], .nil, by simp⟩

/-- The sample channel of a name in lower case. -/
def sample? (r : Registry) (key : String) : Option Declaration :=
  r.samples.find? fun d => d.name == key

/-- Looks a channel up. -/
def get? (r : Registry) (name : String) : Option Channel :=
  let key := Text.lowercase name
  (builtins.lookup key).or ((r.sample? key).map Declaration.channel)

/-- Whether there is a channel of that name. -/
def contains (r : Registry) (name : String) : Bool := (r.get? name).isSome

/-- Puts a declaration in its place, instead of an earlier one of the same name. -/
def insert (d : Declaration) : List Declaration → List Declaration
  | [] => [d]
  | e :: rest =>
    if d.name < e.name then d :: e :: rest
    else if d.name = e.name then d :: rest
    else e :: insert d rest

theorem mem_of_mem_insert {d e : Declaration} {l : List Declaration} (h : e ∈ insert d l) :
    e = d ∨ e ∈ l := by
  induction l with
  | nil => exact .inl (List.mem_singleton.mp h)
  | cons f rest ih =>
    rw [insert] at h
    split at h
    · exact List.mem_cons.mp h
    · split at h
      · exact (List.mem_cons.mp h).imp_right (List.mem_cons_of_mem f)
      · rcases List.mem_cons.mp h with rfl | hrest
        · exact .inr List.mem_cons_self
        · exact (ih hrest).imp_right (List.mem_cons_of_mem f)

theorem pairwise_insert (d : Declaration) {l : List Declaration}
    (h : l.Pairwise fun d e => d.name < e.name) :
    (insert d l).Pairwise fun d e => d.name < e.name := by
  induction l with
  | nil => exact List.pairwise_singleton _ d
  | cons e rest ih =>
    obtain ⟨hfirst, hrest⟩ := List.pairwise_cons.mp h
    rw [insert]
    split
    · next hbefore =>
      -- everything behind the first name is behind the new one
      refine List.pairwise_cons.mpr ⟨fun f hf => ?_, h⟩
      rcases List.mem_cons.mp hf with rfl | hf
      · exact hbefore
      · exact String.lt_trans hbefore (hfirst f hf)
    · next hnot =>
      split
      · next hsame => exact List.pairwise_cons.mpr ⟨fun f hf => hsame ▸ hfirst f hf, hrest⟩
      · next hother =>
        refine List.pairwise_cons.mpr ⟨fun f hf => ?_, ih hrest⟩
        rcases mem_of_mem_insert hf with rfl | hf
        · exact String.not_le.mp fun hle => hother (String.le_antisymm hle (String.not_lt.mp hnot))
        · exact hfirst f hf

/-- Adds a sample channel or changes its address.  A built-in name is refused. -/
def register (r : Registry) (name url : String) : Bool × Registry :=
  if h : isBuiltin name then (false, r)
  else
    (true,
      { samples := insert (.keyed name url) r.samples
        ordered := pairwise_insert _ r.ordered
        isSample := fun d hd => (mem_of_mem_insert hd).elim
          (fun hnew => hnew ▸ Declaration.isSample_keyed h url)
          (r.isSample d) })

/-- Takes the sample channel of a name in lower case out. -/
def remove (r : Registry) (key : String) : Registry where
  samples := r.samples.filter fun d => d.name != key
  ordered := r.ordered.filter _
  isSample := fun d hd => r.isSample d (List.mem_filter.mp hd).1

/-- Removes a sample channel and says whether there was one. -/
def unregister (r : Registry) (name : String) : Bool × Registry :=
  let key := Text.lowercase name
  if isBuiltin name then (false, r)
  else ((r.sample? key).isSome, r.remove key)

/-- The sample channels that a list of declarations asks for; of several for one name the last
counts. -/
def wanted (declared : List Declaration) : Registry :=
  declared.foldl (fun found d => (found.register d.name d.url).2) empty

/-- The built-in names among the declarations, each once, in the order of their first appearance. -/
def rejected (declared : List Declaration) : List String :=
  ((declared.filter fun d => isBuiltin d.name).map fun d => Text.lowercase d.name).foldl
    (fun found name => if found.contains name then found else found ++ [name]) []

/-- The sample channels that the declarations no longer ask for. -/
def stale (r : Registry) (declared : List Declaration) : List String :=
  (r.samples.filter fun d => ((wanted declared).sample? d.name).isNone).map (·.name)

/-- Makes a sample channel what is asked for, unless it is so already, and notes what that
changes. -/
def renew (state : Changes × Registry) (d : Declaration) : Changes × Registry :=
  let (changes, r) := state
  match r.sample? d.name with
  | some old =>
    if old.url = d.url then (changes, r)
    else ({ changes with changed := changes.changed ++ [d.name] }, (r.register d.name d.url).2)
  | none => ({ changes with added := changes.added ++ [d.name] }, (r.register d.name d.url).2)

/-- Makes the sample channels those that the declarations ask for, and reports what that changed:
takes out what is stale, then goes over what is wanted. -/
def adopt (r : Registry) (declared : List Declaration) : Changes × Registry :=
  let stale := r.stale declared
  (wanted declared).samples.foldl renew
    ({ added := [], removed := stale, changed := [], rejected := rejected declared },
      stale.foldl remove r)

end Registry

end Stave
