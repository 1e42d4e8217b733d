import Libchop.Basic
import Libchop.Framework.Layers

/-!
# Filters and their classes

The zip and unzip filters of the library, the names their classes are registered under, and
`dual-filter-class`, which finds the class of the opposite direction by its name.
-/

namespace Libchop

/-- The compression libraries with a zip and an unzip filter. -/
inductive Codec where
  | zlib
  | bzip2
  | lzo
deriving DecidableEq, Repr

inductive Direction where
  | zip
  | unzip
deriving DecidableEq, Repr

/-- A filter class; its direction is the metaclass it is an instance of. -/
structure FilterClass where
  codec : Codec
  direction : Direction
deriving DecidableEq, Repr

def className : FilterClass → String
  | ⟨.zlib, .zip⟩ => "zlib_zip_filter"
  | ⟨.zlib, .unzip⟩ => "zlib_unzip_filter"
  | ⟨.bzip2, .zip⟩ => "bzip2_zip_filter"
  | ⟨.bzip2, .unzip⟩ => "bzip2_unzip_filter"
  | ⟨.lzo, .zip⟩ => "lzo_zip_filter"
  | ⟨.lzo, .unzip⟩ => "lzo_unzip_filter"

def filterClasses : List FilterClass :=
  [⟨.zlib, .zip⟩, ⟨.zlib, .unzip⟩, ⟨.bzip2, .zip⟩, ⟨.bzip2, .unzip⟩, ⟨.lzo, .zip⟩, ⟨.lzo, .unzip⟩]

def lookupClass (name : String) : Option FilterClass :=
  filterClasses.find? fun c => className c = name

/-- Whether `_unzip_filter` or `_zip_filter` comes next, and which. -/
def matchDirection (cs : List Char) : Option String :=
  if "_unzip_filter".toList.isPrefixOf cs then some "unzip"
  else if "_zip_filter".toList.isPrefixOf cs then some "zip"
  else none

/-- The two substrings of the leftmost match of `([a-zA-Z]+)_(unzip|zip)_filter`.  An underscore
is not a letter, so a match takes the whole run of letters it starts in. -/
def regexpExec : List Char → Option (String × String)
  | [] => none
  | c :: cs =>
    if c.isAlpha then
      match matchDirection ((c :: cs).dropWhile Char.isAlpha) with
      | some direction => some (String.ofList ((c :: cs).takeWhile Char.isAlpha), direction)
      | none => regexpExec cs
    else
      regexpExec cs

def dualDirection (dir : String) : String :=
  if dir = "unzip" then "zip" else "unzip"

def dualFilterClass (c : FilterClass) : Option FilterClass :=
  match regexpExec (className c).toList with
  | some (name, direction) => lookupClass (name ++ "_" ++ dualDirection direction ++ "_filter")
  | none => none

theorem lookupClass_className (c : FilterClass) : lookupClass (className c) = some c := by
  rcases c with ⟨codec, direction⟩
  cases codec with
  | zlib => cases direction <;> decide
  | bzip2 => cases direction <;> decide
  | lzo => cases direction <;> decide

/-- The digit of `bzip2` is not matched by the regular expression, so these classes have no
dual. -/
theorem dualFilterClass_zip (codec : Codec) :
    dualFilterClass ⟨codec, .zip⟩ = if codec = .bzip2 then none else some ⟨codec, .unzip⟩ := by
  cases codec with
  | zlib => decide
  | bzip2 => decide
  | lzo => decide

theorem dualFilterClass_unzip (codec : Codec) :
    dualFilterClass ⟨codec, .unzip⟩ = if codec = .bzip2 then none else some ⟨codec, .zip⟩ := by
  cases codec with
  | zlib => decide
  | bzip2 => decide
  | lzo => decide

/-- What the filters compute on a whole input: each codec undoes itself and rejects the output of
the others. -/
structure Codecs where
  zip : Codec → Bytes → Bytes
  unzip : Codec → Bytes → Except ChopError Bytes
  unzip_zip : ∀ codec x, unzip codec (zip codec x) = .ok x
  unzip_zip_of_ne : ∀ codec codec' x, codec ≠ codec' → ∃ e, unzip codec (zip codec' x) = .error e

def Codecs.through (codecs : Codecs) (c : FilterClass) (x : Bytes) : Except ChopError Bytes :=
  match c.direction with
  | .zip => .ok (codecs.zip c.codec x)
  | .unzip => codecs.unzip c.codec x

end Libchop
