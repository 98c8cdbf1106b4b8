import Kura.Base.Json
import Kura.Server.Exec

/-!
# The allow-list of jobs and the outcome of a run

`validateJob` is the only gate between a submitted argument list and an
engine run; it is asked on the coordinator and again on every worker.
`outcome` turns what a run left into the answer a client gets.

## Implementation notes

The iterator of the source is the remaining argument list. Whether a library
profile exists is a question to the file system and enters as a predicate on
profile ids; the text of a report is read by a JSON reader given from
outside.
-/

namespace Kura.Server

open Kura.Base

/-- The levels every job may ask for. -/
def levels : List String :=
  ["1b", "1a", "2b", "2u", "2a", "3b", "3u", "3a", "4", "4f", "4e", "x1a", "x3", "x4", "x6",
    "e1", "vt1", "vt3"]

/-- The further levels of a check. -/
def checkOnly : List String := ["x4p", "x5g", "x5n", "x5pg", "x6n", "x6p", "vt2"]

/-- Query names and options that stand alone. -/
def boolFlags : List (String × String) :=
  [("ua", "--ua"), ("allowVisualRisk", "--allow-visual-risk"),
    ("rasterizePages", "--rasterize-pages"), ("outlineFonts", "--outline-fonts"),
    ("analyze", "--analyze"), ("embedSource", "--embed-source")]

/-- Query names and options that take a text value. -/
def textFlags : List (String × String) :=
  [("lang", "--lang"), ("outputCondition", "--output-condition"),
    ("outputConditionInfo", "--output-condition-info"), ("registry", "--registry"),
    ("vtRecords", "--vt-records"), ("attachXmlName", "--attach-xml-name"),
    ("facturxProfile", "--facturx-profile"), ("embedSourceName", "--embed-source-name"),
    ("rasterDpi", "--raster-dpi"), ("imageMaxPpi", "--image-max-ppi")]

/-- Form fields, options that take a file of the job, and that file's name. -/
def fileFields : List (String × String × String) :=
  [("xml", "--attach-xml", "attachment.xml"), ("destProfile", "--dest-profile", "dest.icc"),
    ("defaultRgb", "--default-rgb", "rgb.icc"), ("defaultCmyk", "--default-cmyk", "cmyk.icc"),
    ("defaultGray", "--default-gray", "gray.icc")]

/-- Length of a text in UTF-16 code units. -/
def utf16Length (s : String) : Nat :=
  (s.toList.map fun c => if c.toNat < 0x10000 then 1 else 2).sum

/-- Non-empty texts of bounded length without control characters. -/
def textValue (v : String) : Bool :=
  let units := utf16Length v
  !(units == 0 || units > 512 || v.toList.any fun c => c.toNat < 0x20 || c.toNat == 0x7f)

/-- Cut a text at the first occurrence of a character. -/
def splitOnce (sep : Char) (cs : List Char) : List Char × Option (List Char) :=
  match cs.dropWhile (· != sep) with
  | [] => (cs, none)
  | _ :: rest => (cs.takeWhile (· != sep), some rest)

/-- The two parts of a library profile id. -/
def profilePart (cs : List Char) : Bool :=
  !cs.isEmpty && cs.length ≤ 100 &&
    cs.all fun c => ('a' ≤ c && c ≤ 'z') || isAsciiDigit c || c == '-'

/-- A bundled profile, by an id that cannot leave the profile folder. -/
def libraryProfile (inLibrary : String → Bool) (id : String) : Bool :=
  match splitOnce '/' id.toList with
  | (a, some b) => profilePart a && profilePart b && inLibrary id
  | _ => false

/-- Unsigned decimal numbers of at most ten characters. -/
def number (v : String) : Bool :=
  let parts := splitOnce '.' v.toList
  v.utf8ByteSize ≤ 10 && !parts.1.isEmpty && parts.1.all isAsciiDigit &&
    match parts.2 with
    | none => true
    | some f => !f.isEmpty && f.all isAsciiDigit

/-- The values a text option takes. -/
def valueOk (flag v : String) : Bool :=
  if !textValue v then false
  else if flag == "--raster-dpi" || flag == "--image-max-ppi" then number v
  else if flag == "--vt-records" then
    v.toList.all fun c => isAsciiDigit c || c == ',' || c == '-' || c == ' '
  else if flag == "--facturx-profile" then
    v.utf8ByteSize ≤ 32 &&
      v.toList.all fun c => isAsciiAlphanumeric c || c == ' ' || c == '_' || c == '-'
  else true

/-- Passwords that fit on a command line. -/
def passwordOk (p : String) : Bool :=
  !p.toList.isEmpty && p.utf8ByteSize ≤ 65536 && !p.toList.contains (Char.ofNat 0)

/-- The part of an option that error texts repeat. -/
def short (s : String) : String := String.ofList (s.toList.take 64)

/-- A file of the job must be there when the job's directory is known. -/
def present (dir : Option Dir) (name : String) : Except String Unit :=
  match dir with
  | some d => if d.has name then .ok () else .error ("the job is missing " ++ name)
  | none => .ok ()

/-- The options of a job after its level; the rest starts at the first
argument that is not a literal. -/
def validateFlags (dir : Option Dir) (inLibrary : String → Bool) (seen : List String) :
    List Arg → Except String (List Arg)
  | .lit flag :: rest =>
      if seen.contains flag then .error ("option " ++ short flag ++ " given twice")
      else if boolFlags.any fun f => f.2 == flag then
        validateFlags dir inLibrary (flag :: seen) rest
      else if textFlags.any fun f => f.2 == flag then
        match rest with
        | .lit v :: rest' =>
            if valueOk flag v then validateFlags dir inLibrary (flag :: seen) rest'
            else .error ("invalid value for " ++ flag)
        | _ => .error ("invalid value for " ++ flag)
      else if flag == "--password" then
        match rest with
        | .lit p :: rest' =>
            if passwordOk p then validateFlags dir inLibrary (flag :: seen) rest'
            else .error "invalid value for --password"
        | _ => .error "invalid value for --password"
      else if flag == "--profile" then
        match rest with
        | .profile id :: rest' =>
            if libraryProfile inLibrary id then validateFlags dir inLibrary (flag :: seen) rest'
            else .error "invalid value for --profile"
        | .file n :: rest' =>
            if n == "profile.json" then
              match present dir n with
              | .ok () => validateFlags dir inLibrary (flag :: seen) rest'
              | .error e => .error e
            else .error "invalid value for --profile"
        | _ => .error "invalid value for --profile"
      else match fileFields.find? fun f => f.2.1 == flag with
        | some f =>
            match rest with
            | .file n :: rest' =>
                if n == f.2.2 then
                  match present dir n with
                  | .ok () => validateFlags dir inLibrary (flag :: seen) rest'
                  | .error e => .error e
                else .error ("invalid value for " ++ flag)
            | _ => .error ("invalid value for " ++ flag)
        | none => .error ("option " ++ short flag ++ " is not allowed")
  | args => .ok args

/-- Nothing may follow. -/
def validateEnd : List Arg → Except String Unit
  | [] => .ok ()
  | _ :: _ => .error "unexpected trailing argument"

/-- The output argument of a conversion. -/
def validateOutput (kind : Kind) (args : List Arg) : Except String Unit :=
  if kind = .convert then
    match args with
    | .out n :: rest =>
        if n == "out.pdf" then validateEnd rest else .error "the output must be out.pdf"
    | _ => .error "the output must be out.pdf"
  else validateEnd args

/-- The input argument and what follows it. -/
def validateInput (kind : Kind) (dir : Option Dir) (args : List Arg) : Except String Unit :=
  match args with
  | .file n :: rest =>
      if n == "in.pdf" || n == "in.jpg" then
        match present dir n with
        | .ok () => validateOutput kind rest
        | .error e => .error e
      else .error "the input must be in.pdf or in.jpg"
  | _ => .error "the input must be in.pdf or in.jpg"

/-- The level of a job and everything after it. -/
def validateLevel (kind : Kind) (dir : Option Dir) (inLibrary : String → Bool)
    (args : List Arg) : Except String Unit :=
  match args with
  | .lit "--level" :: rest =>
      match rest with
      | .lit l :: rest' =>
          if levels.contains l || (kind == .check && checkOnly.contains l) then
            match validateFlags dir inLibrary [] rest' with
            | .ok rest'' => validateInput kind dir rest''
            | .error e => .error e
          else .error "invalid level"
      | _ => .error "invalid level"
  | _ => .error "expected --level"

/-- The input of a password check; nothing may follow it. -/
def validateVerifyInput (dir : Option Dir) (args : List Arg) : Except String Unit :=
  match args with
  | .file n :: rest =>
      if n == "in.pdf" then
        match present dir n with
        | .ok () => validateEnd rest
        | .error e => .error e
      else .error "the input must be in.pdf"
  | _ => .error "the input must be in.pdf"

/-- The arguments of a password check after its first option. -/
def validateVerify (dir : Option Dir) (args : List Arg) : Except String Unit :=
  match args with
  | .lit "--password" :: rest =>
      match rest with
      | .lit p :: rest' =>
          if passwordOk p then validateVerifyInput dir rest'
          else .error "invalid value for --password"
      | _ => .error "invalid value for --password"
  | _ => validateVerifyInput dir args

/-- The jobs that may run. -/
def validateJob (kind : Kind) (args : List Arg) (dir : Option Dir)
    (inLibrary : String → Bool) : Except String Unit :=
  match kind with
  | .verify =>
      match args with
      | .lit "--verify-password" :: rest => validateVerify dir rest
      | _ => .error "expected --verify-password"
  | .check =>
      match args with
      | .lit "--check" :: rest => validateLevel .check dir inLibrary rest
      | _ => .error "expected --check"
  | .convert => validateLevel .convert dir inLibrary args

/-- The statuses an outcome can carry. -/
inductive Status where
  | ok
  | badRequest
  | unprocessableEntity
  | internalServerError
  | gatewayTimeout
  deriving DecidableEq, Repr

/-- The body of an error answer. -/
def errorBody (code message : String) : Json :=
  .obj [("ok", .bool false), ("errorCode", .str code), ("error", .str message)]

/-- The lines of a text. -/
def splitLines (cs : List Char) : List (List Char) := cs.splitOn '\n'

/-- The first line of the engine's output that starts an object, read as a
report without its file name. -/
def parseReport (fromStr : String → Option Json) (out : String) :
    Option (List (String × Json)) :=
  match (splitLines out.toList).find? fun l => l.head? == some '{' with
  | none => none
  | some line =>
      match fromStr (String.ofList line) with
      | some (.obj m) => some (Json.remove m "file")
      | _ => none

/-- White space of Unicode, as a trim removes it. -/
def isWhite (c : Char) : Bool :=
  (9 ≤ c.toNat && c.toNat ≤ 13) || (0x2000 ≤ c.toNat && c.toNat ≤ 0x200a) ||
    [0x20, 0x85, 0xa0, 0x1680, 0x2028, 0x2029, 0x202f, 0x205f, 0x3000].contains c.toNat

/-- A member of a report, or a default where it is missing or null. -/
def pick (m : List (String × Json)) (key dflt : String) : Json :=
  match Json.get? m key with
  | none | some .null => .str dflt
  | some v => v

/-- The first line of an error text that is not blank. -/
def firstErrorLine (err : String) : String :=
  match (splitLines err.toList).find? fun l => !l.all isWhite with
  | some l => String.ofList l
  | none => "invalid options"

/-- The answer to a run that gave no usable report. -/
def engineFailure (fromStr : String → Option Json) (r : RunResult) : Status × Json :=
  if r.timedOut || r.code == some 3 then
    (.gatewayTimeout, errorBody "TIMEOUT" "the job exceeded the time limit")
  else
    let internal := (Status.internalServerError,
      errorBody "INTERNAL" "the engine did not produce a report")
    let usage := (Status.badRequest, errorBody "BAD_REQUEST" (firstErrorLine r.err))
    if r.code == some 2 then
      match parseReport fromStr r.out with
      | some m =>
          let code := pick m "errorCode" "REJECTED"
          let error := pick m "error" "input rejected"
          (.unprocessableEntity, .obj (Json.put (Json.put (Json.put m "ok" (.bool false))
            "errorCode" code) "error" error))
      | none => internal
    else if r.code == some 64 then usage
    else internal

/-- What a client is given: a document with its report, or a JSON body. -/
inductive Outcome where
  | pdf (report : List (String × Json))
  | json (status : Status) (body : Json)

/-- The outcome of a run of the given kind. The document of a conversion is
the file `out.pdf` of the job's directory. -/
def outcome (fromStr : String → Option Json) (kind : Kind) (r : RunResult) : Outcome :=
  let ok01 := r.code == some 0 || r.code == some 1
  let failed (r : RunResult) : Outcome :=
    .json (engineFailure fromStr r).1 (engineFailure fromStr r).2
  match kind with
  | .convert =>
      if r.code == some 0 then .pdf ((parseReport fromStr r.out).getD [("ok", .bool true)])
      else failed r
  | .check =>
      if ok01 then
        match parseReport fromStr r.out with
        | some m => .json .ok (.obj m)
        | none => failed { r with code := some (-1) }
      else failed r
  | .verify =>
      if ok01 then .json .ok (.obj [("ok", .bool true), ("valid", .bool (r.code == some 0))])
      else failed r

/-- A failed run never answers with success. -/
theorem engineFailure_ne_ok (fromStr : String → Option Json) (r : RunResult) :
    (engineFailure fromStr r).1 ≠ .ok := by
  simp only [engineFailure]
  split_ifs
  · simp
  · cases parseReport fromStr r.out <;> simp
  · simp
  · simp

end Kura.Server
