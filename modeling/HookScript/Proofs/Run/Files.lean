import Mathlib.Data.Set.Card
import HookScript.Proofs.Text.Utf8
import HookScript.World

/-!
Files of a world: the paths under which they go, worlds that differ in what the files hold only, and worlds of a few
files.
-/

namespace HookScript

theorem Path.text_ofText (text : String) : (ofText text).text = text := Text.Utf8.decodeLenient_encode text

namespace World

/-- The canonical paths of files. -/
def places (world : World) : Set Path :=
  {place | (∃ path, world.canonicalize path = .ok place) ∧ ∃ bytes, world.read place = .ok bytes}

variable {world other : World} {directory : Option Path} {place : Path} {path text : String}

theorem mem_places_of_readText (found : world.resolveFrom directory path = .ok place)
    (read : world.readText place = .ok text) : place ∈ world.places := by
  refine ⟨⟨_, found⟩, ?_⟩
  cases opened : world.read place with
  | ok bytes => exact ⟨bytes, rfl⟩
  | error error =>
    rw [readText, opened] at read
    cases read

/-- The same paths lead to the same canonical ones, whatever is found there. -/
structure SamePaths (world other : World) : Prop where
  canonicalize_eq (path : Path) : other.canonicalize path = world.canonicalize path

theorem SamePaths.resolveFrom_eq (same : world.SamePaths other) (directory : Option Path) (path : String) :
    other.resolveFrom directory path = world.resolveFrom directory path := same.canonicalize_eq _

/-- These files and no others, seen from the root. Nothing can be decoded. -/
def ofFiles (files : List (String × String)) : World where
  canonicalize path :=
    let place := (Path.ofText "/").join path
    if place ∈ files.map (Path.ofText ·.1) then .ok place else .error ⟨"No such file or directory (os error 2)"⟩
  openFile path :=
    match (files.map fun file => (Path.ofText file.1, file.2)).lookup ((Path.ofText "/").join path) with
    | some text => .ok (.ok (Text.Utf8.encode text))
    | none => .error ⟨"No such file or directory (os error 2)"⟩
  json _ := .error "expected value at line 1 column 1"
  xml _ := []

theorem exists_of_readText_ofFiles {files : List (String × String)} (read : (ofFiles files).readText place = .ok text) :
    ∃ file ∈ files, file.2 = text := by
  cases found : (files.map fun file => (Path.ofText file.1, file.2)).lookup ((Path.ofText "/").join place) with
  | none =>
    simp only [readText, World.read, ofFiles, found] at read
    cases read
  | some contents =>
    simp only [readText, World.read, ofFiles, found, bind, Except.bind, Text.Utf8.decode?_encode] at read
    obtain ⟨before, after, entries, -⟩ := List.lookup_eq_some_iff.1 found
    have listed : ((Path.ofText "/").join place, contents) ∈ files.map fun file => (Path.ofText file.1, file.2) := by
      rw [entries]
      exact List.mem_append_right _ List.mem_cons_self
    obtain ⟨file, among, is⟩ := List.mem_map.1 listed
    cases read
    exact ⟨file, among, (Prod.mk.inj is).2⟩

end World

end HookScript
