import Mathlib.Data.List.Infix

/-!
# Self-delimiting formats

Values are written one after another without separators, and read back from the front.
A read that does not find enough bytes says so in a flag, which later reads keep.

A reader parses some bytes as a value if it takes just these bytes off any input, and
notices when some of them are missing.
-/

namespace Wire

variable {Byte α β σ : Type}

/-- What is left to be read, and whether no read has failed. -/
structure Input (Byte : Type) where
  rest : List Byte
  ok : Bool

abbrev Reader (Byte α : Type) :=
  Input Byte → α × Input Byte

namespace Reader

/-- One reader after another. -/
def andThen (first : Reader Byte α) (second : α → Reader Byte β) : Reader Byte β :=
  fun input => second (first input).1 (first input).2

def pure (value : α) : Reader Byte α :=
  fun input => (value, input)

def map (read : Reader Byte α) (change : α → β) : Reader Byte β :=
  read.andThen fun value => pure (change value)

/-- A step for each of a number of items. -/
def times (step : σ → Reader Byte σ) : Nat → σ → Reader Byte σ
  | 0, state => pure state
  | count + 1, state => (step state).andThen (times step count)

/-- A failure is not forgotten. -/
def Sticky (read : Reader Byte α) : Prop :=
  ∀ input, input.ok = false → (read input).2.ok = false

theorem sticky_pure (value : α) : (pure value : Reader Byte α).Sticky :=
  fun _ failed => failed

theorem Sticky.andThen {first : Reader Byte α} {second : α → Reader Byte β}
    (one : first.Sticky) (two : ∀ value, (second value).Sticky) :
    (first.andThen second).Sticky :=
  fun input failed => two _ _ (one input failed)

theorem Sticky.map {read : Reader Byte α} (sticky : read.Sticky) (change : α → β) :
    (read.map change).Sticky :=
  sticky.andThen fun value => sticky_pure (change value)

theorem Sticky.times {step : σ → Reader Byte σ} (one : ∀ state, (step state).Sticky)
    (count : Nat) (state : σ) : (times step count state).Sticky := by
  induction count generalizing state with
  | zero => exact sticky_pure state
  | succ count ih => exact (one state).andThen ih

end Reader

/-- The reader takes the bytes for the value. -/
structure Parses (read : Reader Byte α) (bytes : List Byte) (value : α) : Prop where
  whole : ∀ rest, read ⟨bytes ++ rest, true⟩ = (value, ⟨rest, true⟩)
  truncated : ∀ part, part <+: bytes → part ≠ bytes → (read ⟨part, true⟩).2.ok = false

namespace Parses

variable {read : Reader Byte α} {bytes more : List Byte} {value : α}

theorem pure (value : α) : Parses (Reader.pure value : Reader Byte α) [] value where
  whole := fun _ => rfl
  truncated := by
    intro part isPart isShort
    exact absurd (List.prefix_nil.mp isPart) isShort

/-- Bytes that follow each other are taken by readers that follow each other. -/
theorem andThen {second : α → Reader Byte β} {last : β} (first : Parses read bytes value)
    (next : Parses (second value) more last) (sticky : ∀ other, (second other).Sticky) :
    Parses (read.andThen second) (bytes ++ more) last where
  whole := by
    intro rest
    rw [List.append_assoc, Reader.andThen, first.whole, next.whole]
  truncated := by
    intro part isPart isShort
    rcases List.prefix_or_prefix_of_prefix isPart (List.prefix_append bytes more) with
      inFirst | ⟨later, rfl⟩
    · by_cases whole : part = bytes
      · -- the first reader finds its bytes, and nothing is left for the second
        subst whole
        have missing : [] ≠ more := by
          rintro rfl
          exact isShort (List.append_nil part).symm
        have found := first.whole []
        rw [List.append_nil] at found
        rw [Reader.andThen, found]
        exact next.truncated [] List.nil_prefix missing
      · exact sticky _ _ (first.truncated part inFirst whole)
    · have inNext : later <+: more := (List.prefix_append_right_inj bytes).mp isPart
      have missing : later ≠ more := by
        rintro rfl
        exact isShort rfl
      rw [Reader.andThen, first.whole]
      exact next.truncated later inNext missing

theorem map (parses : Parses read bytes value) (change : α → β) :
    Parses (read.map change) bytes (change value) := by
  have parsed := parses.andThen (.pure (change value)) fun other => Reader.sticky_pure _
  rwa [List.append_nil] at parsed

/-- A step for each item parses the items written one after another. -/
theorem times {step : σ → Reader Byte σ} {write : α → List Byte} {add : σ → α → σ}
    {items : List α}
    (each : ∀ item ∈ items, ∀ state, Parses (step state) (write item) (add state item))
    (sticky : ∀ state, (step state).Sticky) (state : σ) :
    Parses (Reader.times step items.length state) (items.flatMap write)
      (items.foldl add state) := by
  induction items generalizing state with
  | nil => exact .pure state
  | cons item items ih =>
      apply (each item List.mem_cons_self state).andThen
      · exact ih (fun other member => each other (List.mem_cons_of_mem item member)) _
      · exact Reader.Sticky.times sticky items.length

end Parses

/-- How values are written and read. -/
structure Codec (Byte α : Type) where
  write : α → List Byte
  read : Reader Byte α
  sticky : read.Sticky

namespace Codec

/-- What is written for the value is read as the value. -/
def Carries (codec : Codec Byte α) (value : α) : Prop :=
  Parses codec.read (codec.write value) value

/-- Two values after each other. -/
def pair (first : Codec Byte α) (second : Codec Byte β) : Codec Byte (α × β) where
  write value := first.write value.1 ++ second.write value.2
  read := first.read.andThen fun one => second.read.map fun two => (one, two)
  sticky := first.sticky.andThen fun one => second.sticky.map fun two => (one, two)

theorem Carries.pair {first : Codec Byte α} {second : Codec Byte β} {one : α} {two : β}
    (carriesFirst : first.Carries one) (carriesSecond : second.Carries two) :
    (first.pair second).Carries (one, two) :=
  Parses.andThen carriesFirst (carriesSecond.map fun later => (one, later))
    fun other => second.sticky.map fun later => (other, later)

/-- A value in another form. -/
def through (codec : Codec Byte α) (build : α → β) (take : β → α) : Codec Byte β where
  write value := codec.write (take value)
  read := codec.read.map build
  sticky := codec.sticky.map build

theorem Carries.through {codec : Codec Byte α} {build : α → β} {take : β → α} {value : β}
    (carries : codec.Carries (take value)) (inverse : build (take value) = value) :
    (codec.through build take).Carries value := by
  have read := carries.map build
  rwa [inverse] at read

variable {codec : Codec Byte α} {value : α}

theorem Carries.done (carries : codec.Carries value) :
    codec.read ⟨codec.write value, true⟩ = (value, ⟨[], true⟩) := by
  have read := carries.whole []
  rwa [List.append_nil] at read

end Codec

end Wire
