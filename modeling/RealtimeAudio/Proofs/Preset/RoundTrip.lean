import RealtimeAudio.Preset
import RealtimeAudio.Proofs.Json.Members

/-! Presets in JSON. A preset of finite numbers is read back as it was written, every bit of it; a
preset with any other value is refused, and never read as another preset. -/
namespace RealtimeAudio
open Json

namespace Automation
variable (a : Automation)

theorem plain_texts : ∀ m ∈ fields.texts a, Plain m := by
  simp only [fields, Fields.texts, List.forall_mem_cons]
  exact ⟨.of (by decide) (spells_bool _), .of (by decide) (spells_bool _),
    .of (by decide) (spells_bool _), .of (by decide) (spells_bool _),
    .of (by decide) (spells_bool _), List.forall_mem_nil _⟩

theorem readsBack (s : Automation) : ReadsBack a fields s (.ok a) :=
  .bool (.bool (.bool (.bool (.bool .none))))

theorem read_write : Codec.read kind (Codec.write kind a) = .ok a :=
  (a.readsBack off).read (by decide) a.plain_texts

end Automation

namespace Preset
variable {p : Preset Float32}

/-- The numbers of a preset, in their order in JSON. -/
def numbers (p : Preset Float32) : List Float32 :=
  [p.sampleRate, p.lookAheadSeconds, p.holdSeconds, p.preGainDb, p.postGainDb, p.thresholdDb,
   p.ratio, p.kneeDb, p.attackSeconds, p.releaseSeconds]

theorem plain_texts : ∀ m ∈ fields.texts p, Plain m := by
  have auto : Json.Spells .value (object (Automation.fields.texts p.auto)) :=
    (spellsObject_object p.auto.plain_texts).value
  simp only [fields, Fields.texts, List.forall_mem_cons]
  exact ⟨.of (by decide) (spells_natural _), .of (by decide) (spells_single _),
    .of (by decide) auto, .of (by decide) (spells_single _), .of (by decide) (spells_single _),
    .of (by decide) (spells_single _), .of (by decide) (spells_single _),
    .of (by decide) (spells_single _), .of (by decide) (spells_single _),
    .of (by decide) (spells_single _), .of (by decide) (spells_single _),
    .of (by decide) (spells_single _), List.forall_mem_nil _⟩

theorem readsBack (channels : p.channels < UInt64.size) : ReadsBack p fields standard
    (if p.numbers.all Float32.isFinite then .ok p else .error .mistyped) :=
  .natural (Nat.le_pred_of_lt channels) channels <| .single <| .given p.auto.read_write <|
    .single <| .single <| .single <| .single <| .single <| .single <| .single <| .single <|
      .single readsBack_none

/-- A preset of finite numbers survives, and any other is refused. -/
theorem ofJson_toJson (p : Preset Float32) (channels : p.channels < UInt64.size) :
    ofJson p.toJson =
      if p.numbers.all Float32.isFinite then .ok p else .error .mistyped := by
  have read := (readsBack channels).read (by decide) plain_texts
  rwa [ofJson, toJson, String.toList_ofList]

end Preset

end RealtimeAudio
