import Alcy.Lib.Print
import Alcy.Pkg.Manifest
import Mathlib.Data.List.TakeWhile

/-! # Versions

`parse_version` of `src/pkg/manifest.h`, against what it should accept and against the text that
`serialize_lockfile` writes for a version.
-/
namespace Alcy.Pkg
open Alcy.Path Alcy.Lib.Print

/-! ## Numbers -/

/-- What `std::from_chars` says: the value and what stands behind it, no number, or one that is too
big. -/
inductive FromChars where
  | value (value : Nat) (rest : Text)
  | invalidArgument
  | resultOutOfRange (rest : Text)
  deriving DecidableEq

/-- `std::from_chars` for a `u32`: the longest run of digits, without a sign. -/
def stdFromChars (part : Text) : FromChars :=
  let digits := part.takeWhile Char.isDigit
  let rest := part.dropWhile Char.isDigit
  if digits = [] then .invalidArgument
  else
    let value := Nat.ofDigitChars 10 digits 0
    if value < 2 ^ 32 then .value value rest else .resultOutOfRange rest

/-- A run of digits that a `u32` holds. -/
structure Number (part : Text) (value : Nat) : Prop where
  nonempty : part ≠ []
  digits : ∀ c ∈ part, c.isDigit
  value_eq : Nat.ofDigitChars 10 part 0 = value
  bound : value < 2 ^ 32

theorem Number.no_dot {part : Text} {value : Nat} (h : Number part value) : '.' ∉ part :=
  fun hmem => absurd (h.digits '.' hmem) (by decide)

theorem fromChars_iff {part : Text} {value : Nat} :
    fromChars part = some value ↔ Number part value := by
  unfold fromChars
  constructor
  · intro h
    split at h
    · next hpart =>
      dsimp only at h
      split at h
      · next hbound =>
        cases h
        exact ⟨hpart.1, List.all_eq_true.1 hpart.2, Nat.ofDigitChars_eq_foldl, hbound⟩
      · cases h
    · cases h
  · intro h
    rw [if_pos ⟨h.nonempty, List.all_eq_true.2 h.digits⟩, ← Nat.ofDigitChars_eq_foldl]
    simp only [h.value_eq, if_pos h.bound]

/-- `fromChars` is `std::from_chars` where that stops at the end of the part. -/
theorem stdFromChars_value {part : Text} {value : Nat} :
    stdFromChars part = .value value [] ↔ fromChars part = some value := by
  rw [fromChars_iff]
  unfold stdFromChars
  constructor
  · intro h
    dsimp only at h
    split at h
    · cases h
    · next hne =>
      split at h
      · next hbound =>
        obtain ⟨hvalue, hrest⟩ := FromChars.value.inj h
        have hdigits : part.takeWhile Char.isDigit = part := by
          simpa only [hrest, List.append_nil] using
            List.takeWhile_append_dropWhile (p := Char.isDigit) (l := part)
        rw [hdigits] at hne hvalue hbound
        exact ⟨hne, List.takeWhile_eq_self_iff.1 hdigits, hvalue, hvalue ▸ hbound⟩
      · cases h
  · intro h
    have hdigits := List.takeWhile_eq_self_iff.2 h.digits
    have hrest := List.dropWhile_eq_nil_iff.2 h.digits
    simp only [hdigits, hrest, h.value_eq, if_neg h.nonempty, if_pos h.bound]

theorem versionPart_ok {part : Text} {value : Nat} :
    versionPart part = .ok value ↔ Number part value := by
  rw [← fromChars_iff]
  unfold versionPart
  split
  · next hnil =>
    subst hnil
    exact iff_of_false nofun nofun
  · cases fromChars part with
    | none => exact iff_of_false nofun nofun
    | some value' => exact ⟨fun h => congrArg some (Except.ok.inj h), fun h => by cases h; rfl⟩

/-! ## Three parts -/

theorem cutAtDot_ok {text part rest : Text} :
    cutAtDot text = .ok (part, rest) ↔ text = part ++ '.' :: rest ∧ '.' ∉ part := by
  unfold cutAtDot
  constructor
  · intro h
    split at h
    · cases h
    · next c tail hdrop =>
      cases h
      have hdot : c = '.' := by
        have hhead := List.head_dropWhile_not (· != '.') (hdrop ▸ List.cons_ne_nil c rest)
        simpa only [hdrop, List.head_cons, bne_eq_false_iff_eq] using hhead
      refine ⟨?_, fun hmem => ?_⟩
      · have hjoin := List.takeWhile_append_dropWhile (p := (· != '.')) (l := text)
        rw [hdrop, hdot] at hjoin
        exact hjoin.symm
      · exact absurd (List.mem_takeWhile_imp hmem) (by decide)
  · rintro ⟨rfl, hpart⟩
    have hall (c : Char) (hc : c ∈ part) : (c != '.') = true :=
      bne_iff_ne.2 fun heq => hpart (heq ▸ hc)
    rw [List.dropWhile_append_of_pos hall, List.takeWhile_append_of_pos hall]
    simp

theorem parseVersion_ok {text : Text} {version : Version} : parseVersion text = .ok version ↔
    ∃ major minor patch : Text, text = major ++ '.' :: (minor ++ '.' :: patch) ∧
      Number major version.major ∧ Number minor version.minor ∧ Number patch version.patch := by
  unfold parseVersion
  constructor
  · intro h
    split at h
    · cases h
    · simp only [Lib.Guards.bind_eq_ok] at h
      obtain ⟨⟨part, rest⟩, hcut, major, hmajor, ⟨part', rest'⟩, hcut', minor, hminor, patch,
        hpatch, h⟩ := h
      cases h
      obtain ⟨rfl, -⟩ := cutAtDot_ok.1 hcut
      obtain ⟨rfl, -⟩ := cutAtDot_ok.1 hcut'
      exact ⟨part, part', rest', rfl, versionPart_ok.1 hmajor, versionPart_ok.1 hminor,
        versionPart_ok.1 hpatch⟩
  · rintro ⟨major, minor, patch, rfl, hmajor, hminor, hpatch⟩
    have hne : major ++ '.' :: (minor ++ '.' :: patch) ≠ [] :=
      List.append_ne_nil_of_left_ne_nil hmajor.nonempty _
    rw [if_neg hne]
    simp only [Lib.Guards.bind_eq_ok]
    refine ⟨_, cutAtDot_ok.2 ⟨rfl, hmajor.no_dot⟩, _, versionPart_ok.2 hmajor, _,
      cutAtDot_ok.2 ⟨rfl, hminor.no_dot⟩, _, versionPart_ok.2 hminor, _, versionPart_ok.2 hpatch,
      rfl⟩

/-! ## Printing -/

/-- `{}.{}.{}`, as `serialize_lockfile` prints it. -/
def versionText (version : Version) : Text :=
  decimal version.major ++ '.' :: (decimal version.minor ++ '.' :: decimal version.patch)

theorem decimal_number {value : Nat} (h : value < 2 ^ 32) : Number (decimal value) value where
  nonempty := Nat.toDigits_ne_nil
  digits _ := decimal_digit
  value_eq := ofDigits_decimal value
  bound := h

/-- The parts are `u32`s. -/
structure Version.Fits (version : Version) : Prop where
  major : version.major < 2 ^ 32
  minor : version.minor < 2 ^ 32
  patch : version.patch < 2 ^ 32

/-- **Versions are parsed exactly**: three numbers with dots between them, among them what is
printed for a version. -/
theorem parseVersion_exact : (∀ text version, parseVersion text = .ok version ↔
      ∃ major minor patch : Text, text = major ++ '.' :: (minor ++ '.' :: patch) ∧
        Number major version.major ∧ Number minor version.minor ∧ Number patch version.patch) ∧
    ∀ version : Version, version.Fits → parseVersion (versionText version) = .ok version := by
  refine ⟨fun text version => parseVersion_ok, fun version h => parseVersion_ok.2 ?_⟩
  exact ⟨_, _, _, rfl, decimal_number h.major, decimal_number h.minor, decimal_number h.patch⟩

theorem parseVersion_printed :
    parseVersion (versionText ⟨1, 20, 4294967295⟩) = .ok ⟨1, 20, 4294967295⟩ :=
  parseVersion_exact.2 _ ⟨by decide, by decide, by decide⟩

end Alcy.Pkg
