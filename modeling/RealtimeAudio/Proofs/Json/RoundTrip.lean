import RealtimeAudio.Proofs.Json.Reading
import RealtimeAudio.Proofs.Json.Values
import RealtimeAudio.Proofs.Json.Written

/-! A binary32 number survives JSON: what is written of it is read as the same value, the sign of
zero included. A value that is not finite is written as `null`, which is refused for a number. -/
namespace RealtimeAudio.Json
open Binary Reader
open Float.Model (Format UnpackedFloat)
open Float.Model.UnpackedFloat

section Single
variable {x : Float32}

theorem narrows_signed {y : Float} {s : Sign} {m : ℕ} {e : ℤ} {some : 0 < m}
    (value : x.toModel.unpack = .finite s m e some) (narrows : Narrows y m e) :
    narrow (if negative s then -y else y) = x := by
  obtain ⟨n, g, positive, wide, nearest⟩ := narrows
  have signed : (if negative s then -y else y).toModel.unpack = .finite s n g positive := by
    cases s with
    | positive => exact wide
    | negative =>
      have turned := Double.unpack_neg y
      rw [wide] at turned
      exact turned
  exact Single.narrow_of_nearest signed value nearest

/-- The digits of a finite value, and what they are read as. -/
theorem exists_numeral (finite : x.isFinite = true) : ∃ (n : Numeral) (y : Float),
    n.Sound ∧ n.isWhole = false ∧ Layout.jsonSingle.writeSingle x = n.text ∧
      n.taken.toDouble? = some y ∧ narrow (if n.negative then -y else y) = x := by
  have decodes := Single.decode_toBits x
  have storable : Storable Format.binary32 x.toModel.unpack := storable_unpack _ (by decide)
  have packed := Single.ofModel_pack_unpack x
  change x.toModel.unpack.isFinite = true at finite
  unfold Layout.writeSingle
  rw [decodes]
  cases value : x.toModel.unpack with
  | notANumber =>
    rw [value] at finite
    cases finite
  | infinity s =>
    rw [value] at finite
    cases finite
  | zero s =>
    rw [value] at packed
    refine ⟨numeral (negative s) ⟨0, 0⟩, 0, numeral_sound _ _ fun _ => rfl, numeral_isWhole _ _,
      (numeral_text _ _).symm, ?_, ?_⟩
    · cases s <;> decide +kernel
    · rw [numeral_negative, ← packed]
      cases s <;> decide +kernel
  | finite s m e some =>
    rw [value] at storable
    have ⟨bits, least, full, most⟩ := storable
    have short : (Decimal.shortest .even .single m e).Shortens m e :=
      Decimal.shortest_spec some bits least most
    have whole : (Decimal.shortest .even .single m e).digits = 0 →
        (Decimal.shortest .even .single m e).exponent = 0 :=
      fun zero => absurd zero short.some.ne'
    have text := (numeral_text (negative s) (Decimal.shortest .even .single m e)).symm
    have sign := numeral_negative (negative s) (Decimal.shortest .even .single m e)
    have taken := numeral_taken (negative s) (Decimal.shortest .even .single m e) short.few
    obtain ⟨y, read, narrows⟩ : ∃ y,
        (numeral (negative s) (Decimal.shortest .even .single m e)).taken.toDouble? = .some y ∧
          Narrows y m e := by
      rcases taken with taken | ⟨k, exponent, few, taken⟩
      · rw [taken]
        exact toDouble?_shortens storable short
      · rw [taken]
        exact toDouble?_shortens_whole storable short exponent few
    refine ⟨_, y, numeral_sound _ _ whole, numeral_isWhole _ _, text, read, ?_⟩
    rw [sign]
    exact narrows_signed value narrows

variable {rest : List Char}

/-- What is written of a finite number is read as that number. -/
theorem yields_wantedSingle (finite : x.isFinite = true) (ends : Ends rest) :
    Yields wantedSingle (Layout.jsonSingle.writeSingle x ++ rest) x rest := by
  obtain ⟨n, y, sound, marked, text, read, narrows⟩ := exists_numeral finite
  have number := Numeral.yields_decimal sound ends marked read
  rw [text]
  refine (yields_wantedNumber sound Numeral.spelledBy_text number).bind ?_
  rw [Number.toSingle, narrows]
  exact yields_pure _ _

theorem writeSingle_of_not_finite (other : x.isFinite = false) :
    Layout.jsonSingle.writeSingle x = ['n', 'u', 'l', 'l'] := by
  have decodes := Single.decode_toBits x
  change x.toModel.unpack.isFinite = false at other
  unfold Layout.writeSingle
  rw [decodes]
  cases value : x.toModel.unpack with
  | notANumber => rfl
  | infinity s => cases s <;> rfl
  | zero s =>
    rw [value] at other
    cases other
  | finite s m e some =>
    rw [value] at other
    cases other

/-- What is written of any other value is refused. -/
theorem refuses_wantedSingle (other : x.isFinite = false) :
    Refuses wantedSingle (Layout.jsonSingle.writeSingle x ++ rest) .mistyped := by
  rw [writeSingle_of_not_finite other]
  exact refuses_null

end Single

end RealtimeAudio.Json
