import Alcy.Lib.PrefixCode
import Alcy.Lib.Toml
import Alcy.Pkg.Resolve
import Alcy.Pkg.Versions

/-! # Lockfiles

`src/pkg/lock.cc`. The writer goes over bytes; those it escapes are characters of their own in
UTF-8, so what it writes for a text is the text escaped character by character.
-/
namespace Alcy.Pkg
open Alcy.Path Alcy.Lib Alcy.Lib.PrefixCode Alcy.Lib.Print

structure LockedPackage where
  name : Text
  version : Version
  source : Text
  deriving DecidableEq

/-- `lock_resolved` -/
def lockResolved (resolved : List ResolvedPackage) : List LockedPackage :=
  resolved.map fun package =>
    ⟨package.manifest.name, package.manifest.version, text "path+file://" ++ package.dir.value⟩

/-- `kHex` -/
def kHex : Bytes := utf8 (text "0123456789abcdef")

/-- One byte of `write_escaped`. -/
def writeEscapedByte (c : UInt8) : Bytes :=
  if c = '"'.toUInt8 then utf8 (text "\\\"")
  else if c = '\\'.toUInt8 then utf8 (text "\\\\")
  else if c < 0x20 then
    utf8 (text "\\u00") ++ [kHex.getD (c >>> 4).toNat 0, kHex.getD (c &&& 0xF).toNat 0]
  else [c]

/-- `write_escaped` -/
def writeEscaped (bytes : Bytes) : Bytes := bytes.flatMap writeEscapedByte

/-- One package of `serialize_lockfile`. -/
def writePackage (package : LockedPackage) : Bytes :=
  utf8 (text "\n[[package]]\nname = \"") ++ writeEscaped (utf8 package.name) ++
    utf8 (text "\"\nversion = \"" ++ versionText package.version ++ text "\"\nsource = \"") ++
    writeEscaped (utf8 package.source) ++ utf8 (text "\"\n")

/-- `serialize_lockfile` -/
def serializeLockfile (packages : List LockedPackage) : Bytes :=
  utf8 (text "# Generated by alcy. Do not edit.\nversion = 1\n") ++ packages.flatMap writePackage

/-! ## Character by character -/

/-- What `write_escaped` makes of a character. -/
def escapeChar (c : Char) : Text :=
  if c = '"' then ['\\', '"']
  else if c = '\\' then ['\\', '\\']
  else if c.toNat < 0x20 then
    ['\\', 'u', '0', '0', Nat.digitChar (c.toNat / 16), Nat.digitChar (c.toNat % 16)]
  else [c]

def escapeText (text : Text) : Text := text.flatMap escapeChar

set_option maxRecDepth 4000 in
theorem writeEscapedByte_ascii : ∀ n < 0x80, writeEscapedByte (UInt8.ofNat n) =
    utf8 (escapeChar (Char.ofNat n)) := by decide

theorem writeEscapedByte_beyond {c : UInt8} (h : 0x80 ≤ c.toNat) : writeEscapedByte c = [c] := by
  have hne (d : UInt8) (hd : d.toNat < 0x80) : c ≠ d := by
    rintro rfl
    omega
  unfold writeEscapedByte
  rw [if_neg (hne _ (by decide)), if_neg (hne _ (by decide)), if_neg]
  rw [UInt8.lt_iff_toNat_lt]
  exact Nat.not_lt.2 (Nat.le_trans (by decide) h)

theorem escapeChar_beyond {c : Char} (h : 0x80 ≤ c.toNat) : escapeChar c = [c] := by
  have hne (d : Char) (hd : d.toNat < 0x80) : c ≠ d := by
    rintro rfl
    omega
  unfold escapeChar
  rw [if_neg (hne _ (by decide)), if_neg (hne _ (by decide)), if_neg (by omega)]

/-- **The bytes that are written** for a text are those of the escaped text. -/
theorem writeEscaped_utf8 (text : Text) : writeEscaped (utf8 text) = utf8 (escapeText text) := by
  have hchar (c : Char) : writeEscaped (String.utf8EncodeChar c) = utf8 (escapeChar c) := by
    rcases utf8EncodeChar_cases c with ⟨hascii, hbytes⟩ | ⟨hbeyond, hbytes⟩
    · rw [hbytes, writeEscaped, List.flatMap_singleton, writeEscapedByte_ascii _ hascii,
        Char.ofNat_toNat]
    · rw [escapeChar_beyond hbeyond, utf8, List.flatMap_singleton, writeEscaped]
      calc (String.utf8EncodeChar c).flatMap writeEscapedByte
          = (String.utf8EncodeChar c).flatMap ([·]) :=
            List.flatMap_congr fun b hb => writeEscapedByte_beyond (hbytes b hb)
        _ = String.utf8EncodeChar c := List.flatMap_singleton' _
  unfold writeEscaped utf8 escapeText at *
  rw [List.flatMap_assoc, List.flatMap_assoc]
  exact List.flatMap_congr fun c _ => hchar c

/-! ## What is read -/

/-- The control character that the writer leaves as it is. -/
def delete : Char := '\x7f'

theorem scalar_control : ∀ n < 0x20, Toml.scalar ['0', '0', Nat.digitChar (n / 16),
    Nat.digitChar (n % 16)] = some (Char.ofNat n) := by decide

theorem unescaped_iff {c : Char} (hquote : c ≠ '"') (hescape : c ≠ '\\')
    (hcontrol : 0x20 ≤ c.toNat) : Toml.unescaped c = true ↔ c ≠ delete := by
  have htab : c ≠ '\t' := by
    rintro rfl
    exact absurd hcontrol (by decide)
  have hdelete : c.toNat ≠ 0x7F ↔ c ≠ delete := by
    refine not_congr ⟨fun h => ?_, fun h => h ▸ rfl⟩
    rw [← Char.ofNat_toNat c, h]
    rfl
  simp [Toml.unescaped, htab, hquote, hescape, hcontrol, ← hdelete]

/-- An escaped character is read as that character, or not at all. -/
theorem readString_escapeChar (c : Char) (rest : Text) : Toml.readString (escapeChar c ++ rest) =
    if c = delete then none else Toml.push c (Toml.readString rest) := by
  unfold escapeChar
  split
  · next hquote =>
    subst hquote
    exact Toml.readString_short rfl rest
  · next hquote =>
    split
    · next hescape =>
      subst hescape
      exact Toml.readString_short rfl rest
    · next hescape =>
      split
      · next hcontrol =>
        have hcode := scalar_control c.toNat hcontrol
        rw [Char.ofNat_toNat] at hcode
        have hne : c ≠ delete := by
          rintro rfl
          exact absurd hcontrol (by decide)
        rw [if_neg hne]
        exact (Toml.readString_code _ _ _ _ rest).trans (by rw [hcode, Option.bind_some])
      · next hcontrol =>
        have hunescaped := unescaped_iff hquote hescape (Nat.le_of_not_lt hcontrol)
        rw [List.singleton_append, Toml.readString_char hquote hescape]
        by_cases hdelete : c = delete
        · rw [if_pos hdelete, if_neg]
          exact fun h => hunescaped.1 h hdelete
        · rw [if_neg hdelete, if_pos (hunescaped.2 hdelete)]

/-- **A quoted text** is read back up to the quotation mark behind it, unless a character of it is
left raw that may not be. -/
theorem readString_escapeText (t rest : Text) : Toml.readString (escapeText t ++ '"' :: rest) =
    if delete ∈ t then none else some (t, rest) := by
  induction t with
  | nil => exact Toml.readString_quote rest
  | cons c t ih =>
    have hcons : escapeText (c :: t) ++ '"' :: rest =
        escapeChar c ++ (escapeText t ++ '"' :: rest) := by
      rw [escapeText, List.flatMap_cons, List.append_assoc]
      rfl
    rw [hcons, readString_escapeChar, ih]
    by_cases hc : c = delete
    · rw [if_pos hc, if_pos (hc ▸ List.mem_cons_self ..)]
    · rw [if_neg hc]
      by_cases ht : delete ∈ t
      · rw [if_pos ht, if_pos (.tail _ ht)]
        rfl
      · rw [if_neg ht, if_neg]
        · rfl
        · exact fun hmem => (List.mem_cons.1 hmem).elim (fun h => hc h.symm) ht

/-! ## Lines -/

/-- A line with a key and a quoted text. -/
def quoteLine (key : String) (t : Text) : Text :=
  text key ++ ' ' :: '=' :: ' ' :: '"' :: (escapeText t ++ ['"'])

def packageLines (package : LockedPackage) : List Text :=
  [[], text "[[package]]", quoteLine "name" package.name,
    quoteLine "version" (versionText package.version), quoteLine "source" package.source]

/-- The lines of a lockfile. -/
def lockLines (packages : List LockedPackage) : List Text :=
  [text "# Generated by alcy. Do not edit.", text "version = 1"] ++ packages.flatMap packageLines

/-- Digits and dots need no escapes. -/
theorem escapeText_version (version : Version) :
    escapeText (versionText version) = versionText version := by
  have hplain (c : Char) (hc : c.isDigit ∨ c = '.') : escapeChar c = [c] := by
    have hne (d : Char) (hd : ¬ (d.isDigit ∨ d = '.')) : c ≠ d := fun h => hd (h ▸ hc)
    have hcontrol : ¬ c.toNat < 0x20 := by
      rcases hc with hc | rfl
      · simp only [Char.isDigit, Bool.and_eq_true, decide_eq_true_eq] at hc
        have hle : '0'.toNat ≤ c.toNat := hc.1
        exact fun hlt => absurd (Nat.lt_of_le_of_lt hle hlt) (by decide)
      · decide
    unfold escapeChar
    rw [if_neg (hne _ (by decide)), if_neg (hne _ (by decide)), if_neg hcontrol]
  have hall : ∀ c ∈ versionText version, c.isDigit ∨ c = '.' := by
    intro c hc
    simp only [versionText, List.mem_append, List.mem_cons] at hc
    rcases hc with hc | rfl | hc | rfl | hc
    · exact .inl (decimal_digit hc)
    · exact .inr rfl
    · exact .inl (decimal_digit hc)
    · exact .inr rfl
    · exact .inl (decimal_digit hc)
  calc escapeText (versionText version)
      = (versionText version).flatMap ([·]) :=
        List.flatMap_congr fun c hc => hplain c (hall c hc)
    _ = versionText version := List.flatMap_singleton' _

theorem writePackage_lines (package : LockedPackage) :
    writePackage package = utf8 ((packageLines package).flatMap (· ++ ['\n'])) := by
  simp only [writePackage, writeEscaped_utf8, ← utf8_append, packageLines, quoteLine,
    escapeText_version, List.flatMap_cons, List.flatMap_nil, List.append_nil]
  refine congrArg utf8 ?_
  simp [text]

/-- **The bytes of a lockfile** are those of its lines. -/
theorem serializeLockfile_lines (packages : List LockedPackage) :
    serializeLockfile packages = utf8 ((lockLines packages).flatMap (· ++ ['\n'])) := by
  have hpackages : packages.flatMap writePackage =
      utf8 ((packages.flatMap packageLines).flatMap (· ++ ['\n'])) := by
    rw [List.flatMap_assoc, utf8, List.flatMap_assoc]
    exact List.flatMap_congr fun package _ => writePackage_lines package
  rw [serializeLockfile, hpackages, ← utf8_append, lockLines, List.flatMap_append]
  rfl

theorem escapeChar_newline (c : Char) : '\n' ∉ escapeChar c := by
  have hdigit : ∀ n < 16, Nat.digitChar n ≠ '\n' := by decide
  unfold escapeChar
  split
  · decide
  · split
    · decide
    · split
      · next hcontrol =>
        have hhigh := hdigit (c.toNat / 16) (by omega)
        have hlow := hdigit (c.toNat % 16) (by omega)
        simp [hhigh.symm, hlow.symm]
      · next hcontrol =>
        refine fun hmem => hcontrol ?_
        rw [← List.mem_singleton.1 hmem]
        decide

theorem quoteLine_newline {key : String} (hkey : '\n' ∉ text key) (t : Text) :
    '\n' ∉ quoteLine key t := by
  have ht : '\n' ∉ escapeText t := fun hmem => by
    obtain ⟨c, -, hc⟩ := List.mem_flatMap.1 hmem
    exact escapeChar_newline c hc
  simp [quoteLine, hkey, ht]

theorem lockLines_newline (packages : List LockedPackage) :
    ∀ line ∈ lockLines packages, '\n' ∉ line := by
  intro line hline
  rcases List.mem_append.1 hline with hline | hline
  · have hfixed : ∀ line ∈ [text "# Generated by alcy. Do not edit.", text "version = 1"],
        '\n' ∉ line := by decide
    exact hfixed line hline
  · obtain ⟨package, -, hline⟩ := List.mem_flatMap.1 hline
    simp only [packageLines, List.mem_cons, List.not_mem_nil, or_false] at hline
    rcases hline with rfl | rfl | rfl | rfl | rfl
    · exact List.not_mem_nil
    · decide
    · exact quoteLine_newline (by decide) _
    · exact quoteLine_newline (by decide) _
    · exact quoteLine_newline (by decide) _

/-! ## Different lists -/

/-- The character that is written first, raw ones as they are. -/
def unescapeChar : Text → Option (Char × Text)
  | '\\' :: '"' :: rest => some ('"', rest)
  | '\\' :: '\\' :: rest => some ('\\', rest)
  | '\\' :: 'u' :: a :: b :: c :: d :: rest => (Toml.scalar [a, b, c, d]).map (·, rest)
  | c :: rest => some (c, rest)
  | [] => none

theorem unescapeChar_escapeChar (c : Char) (rest : Text) :
    unescapeChar (escapeChar c ++ rest) = some (c, rest) := by
  unfold escapeChar
  split
  · next hquote =>
    subst hquote
    rfl
  · split
    · next hescape =>
      subst hescape
      rfl
    · next hescape =>
      split
      · next hcontrol =>
        have hcode := scalar_control c.toNat hcontrol
        rw [Char.ofNat_toNat] at hcode
        show (Toml.scalar ['0', '0', _, _]).map (·, rest) = _
        rw [hcode, Option.map_some]
      · rw [List.singleton_append, unescapeChar]
        · exact fun _ h => absurd h hescape
        · exact fun _ h => absurd h hescape
        · exact fun _ _ _ _ _ h => absurd h hescape

theorem quoted_prefixed : Prefixed fun t => escapeText t ++ ['"'] := by
  refine (prefixed_of_read unescapeChar_escapeChar).until fun c rest rest' heq => ?_
  -- No character is written with a quotation mark in front.
  have hread := unescapeChar_escapeChar c rest
  rw [heq] at hread
  cases hread
  cases heq

theorem decimal_prefixed {stop : Char} (hstop : ¬ stop.isDigit) :
    Prefixed fun value => decimal value ++ [stop] := by
  refine prefixed_until (fun value value' heq => ?_) fun value hmem => hstop (decimal_digit hmem)
  have hvalue := congrArg (Nat.ofDigitChars 10 · 0) heq
  simpa only [ofDigits_decimal] using hvalue

theorem versionText_prefixed : Prefixed fun version => versionText version ++ ['"'] := by
  have hdot := @decimal_prefixed '.' (by decide)
  have hparts := hdot.append (hdot.append (@decimal_prefixed '"' (by decide)))
  have hversion := hparts.comap (f := fun version : Version =>
    (version.major, version.minor, version.patch))
    (fun ⟨_, _, _⟩ ⟨_, _, _⟩ h => by cases h; rfl)
  simpa only [versionText, List.append_assoc, List.cons_append, List.nil_append] using hversion

theorem packageLines_prefixed :
    Prefixed fun package => (packageLines package).flatMap (· ++ ['\n']) := by
  have hname := quoted_prefixed.framed (text "\n[[package]]\nname = \"") (text "\nversion = \"")
  have hsource := quoted_prefixed.framed (text "\nsource = \"") (text "\n")
  have hpackage := (hname.append (versionText_prefixed.append hsource)).comap
    (f := fun package : LockedPackage => (package.name, package.version, package.source))
    (fun ⟨_, _, _⟩ ⟨_, _, _⟩ h => by cases h; rfl)
  refine cast (congrArg Prefixed (funext fun package => ?_)) hpackage
  simp [packageLines, quoteLine, escapeText_version, text]

/-- **Different lists are written differently**, whatever their texts. -/
theorem serializeLockfile_injective : Function.Injective serializeLockfile := by
  intro packages packages' heq
  rw [serializeLockfile_lines, serializeLockfile_lines] at heq
  have htext := utf8_injective heq
  simp only [lockLines, List.flatMap_append, List.flatMap_assoc] at htext
  refine packageLines_prefixed.flatMap (fun package hnil => ?_) (List.append_cancel_left htext)
  simp [packageLines] at hnil

/-! ## Reading a lockfile -/

/-- No text holds the character that is left raw. -/
structure LockedPackage.Clean (package : LockedPackage) : Prop where
  name : delete ∉ package.name
  source : delete ∉ package.source

def packageEntries (package : LockedPackage) : List Toml.Entry :=
  [.table (text "package"), .string (text "name") package.name,
    .string (text "version") (versionText package.version), .string (text "source") package.source]

/-- What is locked is clean where the names and the directories are. -/
theorem lockResolved_clean (resolved : List ResolvedPackage) :
    (∀ package ∈ lockResolved resolved, package.Clean) ↔
      ∀ package ∈ resolved, delete ∉ package.manifest.name ∧ delete ∉ package.dir.value := by
  have hscheme : delete ∉ text "path+file://" := by decide
  rw [lockResolved, List.forall_mem_map]
  refine forall₂_congr fun package _ => ⟨fun h => ⟨h.name, fun hmem => ?_⟩, fun h => ⟨h.1, ?_⟩⟩
  · exact h.source (List.mem_append_right _ hmem)
  · exact fun hmem => (List.mem_append.1 hmem).elim hscheme h.2

/-- What was locked. -/
def lockEntries (packages : List LockedPackage) : List Toml.Entry :=
  .integer (text "version") 1 :: packages.flatMap packageEntries

theorem readLine_quoteLine {key : String} (hne : text key ≠ [])
    (hkey : (text key).all Toml.bare = true) (t : Text) : Toml.readLine (quoteLine key t) =
      if delete ∈ t then none else some [.string (text key) t] := by
  rw [quoteLine, Toml.readLine_string hne (List.all_eq_true.1 hkey), readString_escapeText]
  split <;> rfl

theorem delete_version (version : Version) : delete ∉ versionText version := by
  intro hmem
  simp only [versionText, List.mem_append, List.mem_cons] at hmem
  rcases hmem with h | h | h | h | h
  · exact absurd (decimal_digit h) (by decide)
  · cases h
  · exact absurd (decimal_digit h) (by decide)
  · cases h
  · exact absurd (decimal_digit h) (by decide)

theorem readLines_package (package : LockedPackage) : Toml.readLines (packageLines package) =
    if delete ∈ package.name ∨ delete ∈ package.source then none
    else some (packageEntries package) := by
  have hname := @readLine_quoteLine "name" (by decide) (by decide) package.name
  have hversion := @readLine_quoteLine "version" (by decide) (by decide)
    (versionText package.version)
  have hsource := @readLine_quoteLine "source" (by decide) (by decide) package.source
  rw [if_neg (delete_version package.version)] at hversion
  have hblank : Toml.readLine [] = some [] := rfl
  have htable : Toml.readLine (text "[[package]]") = some [.table (text "package")] := by decide
  simp only [packageLines, Toml.readLines, hblank, htable, hname, hversion, hsource]
  by_cases h : delete ∈ package.name
  · simp [h]
  · by_cases h' : delete ∈ package.source
    · simp [h, h']
    · simp [h, h', packageEntries]

theorem readLines_packages (packages : List LockedPackage) :
    (∃ entries, Toml.readLines (packages.flatMap packageLines) = some entries) ↔
      ∀ package ∈ packages, package.Clean := by
  induction packages with
  | nil => exact iff_of_true ⟨[], rfl⟩ (List.forall_mem_nil _)
  | cons package packages ih =>
    rw [List.flatMap_cons, Toml.readLines_append, readLines_package, List.forall_mem_cons, ← ih]
    split
    · next hraw =>
      refine iff_of_false (fun ⟨_, h⟩ => by cases h) fun h => ?_
      exact hraw.elim h.1.name h.1.source
    · next hclean =>
      rw [not_or] at hclean
      simp only [Option.bind_some, Option.map_eq_some_iff]
      exact ⟨fun ⟨_, entries, h, _⟩ => ⟨⟨hclean.1, hclean.2⟩, entries, h⟩,
        fun ⟨_, entries, h⟩ => ⟨_, entries, h, rfl⟩⟩

theorem readLines_packages_eq {packages : List LockedPackage} {entries : List Toml.Entry}
    (h : Toml.readLines (packages.flatMap packageLines) = some entries) :
    entries = packages.flatMap packageEntries := by
  induction packages generalizing entries with
  | nil =>
    cases h
    rfl
  | cons package packages ih =>
    rw [List.flatMap_cons, Toml.readLines_append, readLines_package] at h
    split at h
    · cases h
    · obtain ⟨more, hmore, rfl⟩ := Option.map_eq_some_iff.1 h
      rw [List.flatMap_cons, ih hmore]

/-- **A lockfile is read as what was locked**, if its texts are clean. -/
theorem read_lockLines (packages : List LockedPackage) :
    Toml.read ((lockLines packages).flatMap (· ++ ['\n'])) = some (lockEntries packages) ↔
      ∀ package ∈ packages, package.Clean := by
  have hfirst : Toml.readLines [text "# Generated by alcy. Do not edit.", text "version = 1"] =
      some [.integer (text "version") 1] := by decide
  rw [Toml.read_lines (lockLines_newline packages), lockLines, Toml.readLines_append, hfirst,
    Option.bind_some, Option.map_eq_some_iff, ← readLines_packages packages]
  constructor
  · exact fun ⟨entries, h, _⟩ => ⟨entries, h⟩
  · rintro ⟨entries, h⟩
    exact ⟨entries, h, by rw [readLines_packages_eq h]; rfl⟩

/-- What a lockfile should be: its quoted texts are basic strings of TOML for these texts, the whole
is a document that holds what was locked and nothing else, and no other list is written so. -/
structure Faithful (packages : List LockedPackage) : Prop where
  quoted : ∀ package ∈ packages, ∀ t ∈ [package.name, package.source], ∃ body,
    writeEscaped (utf8 t) = utf8 body ∧
      ∀ rest, Toml.readString (body ++ '"' :: rest) = some (t, rest)
  document : ∃ content, serializeLockfile packages = utf8 content ∧
    Toml.read content = some (lockEntries packages)
  unique : ∀ other, serializeLockfile other = serializeLockfile packages → other = packages

/-- **Lockfiles decode to what was locked**, and to nothing if a text holds U+007F. -/
theorem serializeLockfile_faithful (packages : List LockedPackage) :
    Faithful packages ↔ ∀ package ∈ packages, package.Clean := by
  constructor
  · intro h
    obtain ⟨content, hbytes, hread⟩ := h.document
    rw [serializeLockfile_lines] at hbytes
    rw [← utf8_injective hbytes] at hread
    exact (read_lockLines packages).1 hread
  · intro h
    refine ⟨fun package hpackage t ht => ⟨_, writeEscaped_utf8 t, fun rest => ?_⟩,
      ⟨_, serializeLockfile_lines packages, (read_lockLines packages).2 h⟩,
      fun other heq => serializeLockfile_injective heq⟩
    have hclean : delete ∉ t := by
      simp only [List.mem_cons, List.not_mem_nil, or_false] at ht
      rcases ht with rfl | rfl
      · exact (h package hpackage).name
      · exact (h package hpackage).source
    rw [readString_escapeText, if_neg hclean]

/-- A package named by the control character alone. -/
theorem deleteNamed_unfaithful : ¬ Faithful [⟨[delete], ⟨0, 0, 0⟩, text "path+file:///x"⟩] := by
  intro h
  obtain ⟨body, hbody, hread⟩ := h.quoted _ (List.mem_singleton.2 rfl) [delete] (.head _)
  rw [writeEscaped_utf8] at hbody
  have hnone := hread []
  rw [← utf8_injective hbody, readString_escapeText, if_pos (.head _)] at hnone
  cases hnone

end Alcy.Pkg
