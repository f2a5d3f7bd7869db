import Mathlib.Data.List.Nodup
import RealtimeAudio.Preset
import RealtimeAudio.Proofs.Json.Objects

/-! Presets from any JSON object. What is given replaces what is standard, in the nested switches
too, and nothing else of the text has a part in it: not the order of the members, not the blanks
between them and not what the preset does not know. A preset that gives anything twice is refused.
-/
namespace RealtimeAudio
open Json

section Folding
variable {σ α : Type} (assign : α → σ → σ) (Q : σ → Prop) {given : List α}

end Folding

namespace Automation

inductive Switch where
  | knee
  | attack
  | release
  | postGain
  | declip
deriving DecidableEq, Repr

namespace Switch

def name : Switch → String
  | knee => "knee"
  | attack => "attack"
  | release => "release"
  | postGain => "post_gain"
  | declip => "declip"

def get : Switch → Automation → Bool
  | knee, a => a.knee
  | attack, a => a.attack
  | release, a => a.release
  | postGain, a => a.postGain
  | declip, a => a.declip

def set : Switch → Bool → Automation → Automation
  | knee, b, a => { a with knee := b }
  | attack, b, a => { a with attack := b }
  | release, b, a => { a with release := b }
  | postGain, b, a => { a with postGain := b }
  | declip, b, a => { a with declip := b }

theorem has_fields (s : Switch) : fields.Has s.name .bool s.set := by
  cases s with
  | knee => exact .here
  | attack => exact .later .here
  | release => exact .later (.later .here)
  | postGain => exact .later (.later (.later .here))
  | declip => exact .later (.later (.later (.later .here)))

theorem ext_get {a b : Automation} (same : ∀ s : Switch, s.get a = s.get b) : a = b := by
  obtain ⟨knee, attack, release, postGain, declip⟩ := a
  rw [mk.injEq]
  exact ⟨same .knee, same .attack, same .release, same .postGain, same .declip⟩

end Switch

/-- A switch that is given in JSON. -/
def Spells (given : Switch × Bool) (name : String) (value : List Char) : Prop :=
  name = given.1.name ∧ value = (toString given.2).toList

/-- What the members of an object give to the switches; `none` if one of them is given twice. -/
def Gives (ms : List (String × List Char)) (given : Option (List (Switch × Bool))) : Prop :=
  Json.Gives fields.names Spells (fun _ _ => False) [] ms given

/-- Switches that are off but where they are given. -/
structure Merges (given : List (Switch × Bool)) (a : Automation) : Prop where
  held : ∀ s b, (s, b) ∈ given → s.get a = b
  kept : ∀ s, (∀ b, (s, b) ∉ given) → s.get a = s.get off

def assign (given : Switch × Bool) : Automation → Automation := given.1.set given.2

variable {ms : List (String × List Char)} {given : List (Switch × Bool)} {a : Automation}

theorem sound [Codec] (rules : Codec.Rules) :
    Sound fields Spells (fun _ _ => False) assign where
  reads := by
    rintro ⟨s, b⟩ _ _ ⟨rfl, rfl⟩
    exact ⟨_, _, _, b, s.has_fields, rules.bool b, rfl⟩
  refuses := nofun

/-- An object of switches comes to what its members give. -/
theorem read_object [Codec] (rules : Codec.Rules) {value : List Char}
    {result : Option (List (Switch × Bool))} (object : SpellsObject ms value)
    (gives : Gives ms result) : Codec.read kind value = merged assign off result :=
  rules.read_record (by decide) (sound rules) object.document gives off

/-- What is given and what is kept make out the switches. -/
theorem Merges.unique {b : Automation} {given' : List (Switch × Bool)} (merges : Merges given a)
    (merges' : Merges given' b) (same : given.Perm given') : a = b := by
  refine Switch.ext_get fun s => ?_
  by_cases listed : ∃ x, (s, x) ∈ given
  · obtain ⟨x, listed⟩ := listed
    rw [merges.held s x listed, merges'.held s x (same.mem_iff.mp listed)]
  · rw [not_exists] at listed
    rw [merges.kept s listed, merges'.kept s fun x => same.mem_iff.not.mp (listed x)]

end Automation

namespace Preset

/-- The fields of a preset that are numbers. -/
inductive Quantity where
  | sampleRate
  | lookAheadSeconds
  | holdSeconds
  | preGainDb
  | postGainDb
  | thresholdDb
  | ratio
  | kneeDb
  | attackSeconds
  | releaseSeconds
deriving DecidableEq, Repr

namespace Quantity

def name : Quantity → String
  | sampleRate => "sample_rate"
  | lookAheadSeconds => "look_ahead_seconds"
  | holdSeconds => "hold_seconds"
  | preGainDb => "pre_gain_db"
  | postGainDb => "post_gain_db"
  | thresholdDb => "threshold_db"
  | ratio => "ratio"
  | kneeDb => "knee_db"
  | attackSeconds => "attack_seconds"
  | releaseSeconds => "release_seconds"

def get : Quantity → Preset Float32 → Float32
  | sampleRate, p => p.sampleRate
  | lookAheadSeconds, p => p.lookAheadSeconds
  | holdSeconds, p => p.holdSeconds
  | preGainDb, p => p.preGainDb
  | postGainDb, p => p.postGainDb
  | thresholdDb, p => p.thresholdDb
  | ratio, p => p.ratio
  | kneeDb, p => p.kneeDb
  | attackSeconds, p => p.attackSeconds
  | releaseSeconds, p => p.releaseSeconds

def set : Quantity → Float32 → Preset Float32 → Preset Float32
  | sampleRate, x, p => { p with sampleRate := x }
  | lookAheadSeconds, x, p => { p with lookAheadSeconds := x }
  | holdSeconds, x, p => { p with holdSeconds := x }
  | preGainDb, x, p => { p with preGainDb := x }
  | postGainDb, x, p => { p with postGainDb := x }
  | thresholdDb, x, p => { p with thresholdDb := x }
  | ratio, x, p => { p with ratio := x }
  | kneeDb, x, p => { p with kneeDb := x }
  | attackSeconds, x, p => { p with attackSeconds := x }
  | releaseSeconds, x, p => { p with releaseSeconds := x }

theorem has_fields (q : Quantity) : fields.Has q.name .single q.set := by
  cases q <;> repeat first | exact .here | refine .later ?_

theorem ext_get {p p' : Preset Float32} (channels : p.channels = p'.channels)
    (auto : p.auto = p'.auto) (same : ∀ q : Quantity, q.get p = q.get p') : p = p' := by
  obtain ⟨_, _, _, _, _, _, _, _, _, _, _, _⟩ := p
  rw [mk.injEq]
  exact ⟨channels, same .sampleRate, auto, same .lookAheadSeconds, same .holdSeconds,
    same .preGainDb, same .postGainDb, same .thresholdDb, same .ratio, same .kneeDb,
    same .attackSeconds, same .releaseSeconds⟩

end Quantity

/-- A field of a preset that is given in JSON. -/
inductive Setting where
  | channels (n : ℕ)
  | auto (switches : List (Automation.Switch × Bool))
  | quantity (q : Quantity) (x : Float32)

namespace Setting

def name : Setting → String
  | channels _ => "channels"
  | auto _ => "auto"
  | quantity q _ => q.name

/-- The texts of what is given: a whole number of 64 bits without sign, point or exponent; an
object; any number that is not too large to be read, as what it is read. -/
def SpelledBy [Codec] (value : List Char) : Setting → Prop
  | channels n => n < UInt64.size ∧ value = (toString n).toList
  | auto switches => ∃ ms, SpellsObject ms value ∧ Automation.Gives ms (some switches)
  | quantity _ x => SpellsNumber value ∧ Codec.read .single value = .ok x

def assign : Setting → Preset Float32 → Preset Float32
  | channels n, p => { p with channels := n }
  | auto switches, p =>
    { p with auto := switches.foldl (fun a switch => Automation.assign switch a) .off }
  | quantity q x, p => q.set x p

section Assign
variable {s : Setting} (p : Preset Float32)

end Assign

/-- The same is given, but for the order of switches. -/
inductive Same : Setting → Setting → Prop
  | refl (s : Setting) : Same s s
  | auto {switches switches' : List (Automation.Switch × Bool)} : switches.Perm switches' →
      Same (auto switches) (auto switches')

end Setting

def Spells [Codec] (s : Setting) (name : String) (value : List Char) : Prop :=
  name = s.name ∧ s.SpelledBy value

/-- The values that the fields take. -/
inductive Takes : String → List Char → Prop
  | channels {n : ℕ} : n < UInt64.size → Takes "channels" (toString n).toList
  | auto {ms : List (String × List Char)} {switches : List (Automation.Switch × Bool)}
      {value : List Char} : SpellsObject ms value → Automation.Gives ms (some switches) →
      Takes "auto" value
  | quantity (q : Quantity) {n : Numeral} {value : List Char} : n.Sound → n.SpelledBy value →
      n.magnitude ≤ 10 ^ 300 → Takes q.name value

/-- Switches one of which is given twice. -/
def Spoils (name : String) (value : List Char) : Prop :=
  name = "auto" ∧ ∃ ms, SpellsObject ms value ∧ Automation.Gives ms none

/-- The members of an object with the names of fields. -/
def known (ms : List (String × List Char)) : List (String × List Char) :=
  knownMembers fields.names ms

/-- What the members of an object give to a preset; `none` if anything is given twice. -/
def Gives [Codec] (ms : List (String × List Char)) (given : Option (List Setting)) : Prop :=
  Json.Gives fields.names Spells Spoils [] ms given

/-- The same settings in any order. -/
def SameSettings (settings settings' : List Setting) : Prop :=
  ∃ between, settings.Perm between ∧ List.Forall₂ Setting.Same between settings'

/-- A preset that is standard but where something is given. -/
structure Merges (given : List Setting) (p : Preset Float32) : Prop where
  channels : ∀ n, .channels n ∈ given → p.channels = n
  auto : ∀ switches, .auto switches ∈ given → Automation.Merges switches p.auto
  quantity : ∀ q x, .quantity q x ∈ given → q.get p = x
  channels_kept : (∀ n, .channels n ∉ given) → p.channels = standard.channels
  auto_kept : (∀ switches, .auto switches ∉ given) → p.auto = standard.auto
  quantity_kept : ∀ q, (∀ x, .quantity q x ∉ given) → q.get p = q.get standard

section Merging
variable [Codec] {ms : List (String × List Char)} {given : List Setting}

theorem sound (rules : Codec.Rules) : Sound fields Spells Spoils Setting.assign where
  reads := by
    rintro s _ value ⟨rfl, spelled⟩
    cases s with
    | channels n =>
      obtain ⟨fits, rfl⟩ := spelled
      exact ⟨_, _, _, n, .here, rules.natural (Nat.le_pred_of_lt fits) fits, rfl⟩
    | auto switches =>
      obtain ⟨ms, object, gives⟩ := spelled
      exact ⟨_, _, _, _, .later (.later .here), Automation.read_object rules object gives, rfl⟩
    | quantity q x => exact ⟨_, _, _, x, q.has_fields, spelled.2, rfl⟩
  refuses := by
    rintro _ value ⟨rfl, ms, object, gives⟩
    exact ⟨_, _, _, .later (.later .here), Automation.read_object rules object gives⟩

end Merging

section Same
variable {settings settings' : List Setting} {p p' : Preset Float32}

theorem SameSettings.of_mem (same : SameSettings settings settings') {s : Setting}
    (listed : s ∈ settings) : ∃ s' ∈ settings', s.Same s' := by
  obtain ⟨between, permuted, related⟩ := same
  exact exists_of_forall₂ (R := flip Setting.Same) related.flip (permuted.mem_iff.mp listed)

theorem SameSettings.of_mem' (same : SameSettings settings settings') {s : Setting}
    (listed : s ∈ settings') : ∃ s' ∈ settings, s'.Same s := by
  obtain ⟨between, permuted, related⟩ := same
  obtain ⟨s', listed, related⟩ := exists_of_forall₂ related listed
  exact ⟨s', permuted.mem_iff.mpr listed, related⟩

/-- What is given makes out the preset, in whatever order. -/
theorem Merges.unique (merges : Merges settings p) (merges' : Merges settings' p')
    (same : SameSettings settings settings') : p = p' := by
  refine Quantity.ext_get ?_ ?_ fun q => ?_
  · by_cases listed : ∃ n, .channels n ∈ settings
    · obtain ⟨n, listed⟩ := listed
      obtain ⟨s, listed', related⟩ := same.of_mem listed
      cases related
      rw [merges.channels n listed, merges'.channels n listed']
    · rw [not_exists] at listed
      rw [merges.channels_kept listed, merges'.channels_kept fun n listed' => ?_]
      obtain ⟨s, listed', related⟩ := same.of_mem' listed'
      cases related
      exact listed n listed'
  · by_cases listed : ∃ switches, .auto switches ∈ settings
    · obtain ⟨switches, listed⟩ := listed
      obtain ⟨s, listed', related⟩ := same.of_mem listed
      cases related with
      | refl => exact (merges.auto _ listed).unique (merges'.auto _ listed') (.refl _)
      | auto permuted =>
        exact (merges.auto _ listed).unique (merges'.auto _ listed') permuted
    · rw [not_exists] at listed
      rw [merges.auto_kept listed, merges'.auto_kept fun switches listed' => ?_]
      obtain ⟨s, listed', related⟩ := same.of_mem' listed'
      cases related <;> exact listed _ listed'
  · by_cases listed : ∃ x, .quantity q x ∈ settings
    · obtain ⟨x, listed⟩ := listed
      obtain ⟨s, listed', related⟩ := same.of_mem listed
      cases related
      rw [merges.quantity q x listed, merges'.quantity q x listed']
    · rw [not_exists] at listed
      rw [merges.quantity_kept q listed, merges'.quantity_kept q fun x listed' => ?_]
      obtain ⟨s, listed', related⟩ := same.of_mem' listed'
      cases related
      exact listed x listed'

end Same

section Documents
variable [Codec] {text : String} {ms : List (String × List Char)}

end Documents

end Preset

end RealtimeAudio
