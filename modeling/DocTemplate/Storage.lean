/-!
# Files

Where documents and configurations come from. A storage says what stands at a path; a folder is a
storage that holds its files in memory, all side by side. Above a folder there are other folders,
and nothing is known to be in them.
-/

namespace DocTemplate

/-- What a file holds. -/
inductive Content where
  | text (s : String)
  | bytes (b : ByteArray)
  /-- Nothing but zero bytes, of which only the number is kept. -/
  | zeros (count : Nat)

namespace Content

/-- How many bytes there are. -/
def size : Content → Nat
  | text s => s.utf8ByteSize
  | bytes b => b.size
  | zeros count => count

/-- The content as a text; bytes that are not the UTF-8 form of a text are none. -/
def text? : Content → Option String
  | text s => some s
  | bytes b => String.fromUTF8? b
  | zeros count => some ("".pushn (Char.ofNat 0) count)

end Content

/-- What stands at a path. -/
inductive Entry where
  | missing
  /-- Something that cannot be read as a file, and why not. -/
  | unreadable (reason : String)
  | file (c : Content)

namespace Entry

/-- The text of a file that can be read, or why there is none. -/
def text? : Entry → Except String String
  | missing => .error "No such file or directory (os error 2)"
  | unreadable reason => .error reason
  | file c => match c.text? with
    | some s => .ok s
    | none => .error "stream did not contain valid UTF-8"

end Entry

/-- Finds what stands at a path. -/
abbrev Storage := String → Entry

/-- Files by name. -/
structure Folder where
  files : List (String × Content) := []

namespace Folder

/-- Longest name of a file, in bytes. -/
def nameBytes : Nat := 255

/-- Bytes that a path has to stay below. -/
def pathBytes : Nat := 4096

/-- Where a path has led so far. -/
inductive Place where
  /-- The folder itself. -/
  | inside
  /-- A folder above. -/
  | above
  | file (c : Content)

/-- What stands at a place; a folder is nothing that could be read. -/
def Place.entry : Place → Entry
  | inside | above => .unreadable "Is a directory (os error 21)"
  | file c => .file c

/-- A path has a name, or the path as a whole, that is longer than allowed. -/
def tooLong : Entry := .unreadable "File name too long (os error 36)"

/-- Follow the names of a path from a place. Only a folder has anything below it. -/
def follow (f : Folder) : Place → List String → Entry
  | place, [] => place.entry
  | .file _, _ :: _ => .unreadable "Not a directory (os error 20)"
  | .inside, name :: names =>
    if name = "" || name = "." then f.follow .inside names
    else if name = ".." then f.follow .above names
    else if nameBytes < name.utf8ByteSize then tooLong
    else match f.files.find? (fun e => e.1 = name) with
      | some (_, c) => f.follow (.file c) names
      | none => .missing
  | .above, name :: names =>
    if name = "" || name = "." || name = ".." then f.follow .above names
    else if nameBytes < name.utf8ByteSize then tooLong
    else .missing

/-- What stands at a path; one that begins with a slash begins above everything. -/
def find (f : Folder) : Storage := fun path =>
  if path = "" then .missing
  else if path.contains (Char.ofNat 0) then .unreadable "file name contained an unexpected NUL byte"
  else if pathBytes ≤ path.utf8ByteSize then tooLong
  else f.follow (if path.startsWith "/" then .above else .inside) (path.splitOn "/")

end Folder

end DocTemplate
