import Kura.Engine.Number

/-!
# The command line of the engine

The loop over the words of a command line: an option is followed by its value
if it takes one and a word is left, everything else is positional. Some
options check their value at once and end the program.

## Implementation notes

What a branch of the loop assigns depends on the option and its value only, so
the state keeps the list of options with their values instead of the fields.
The options stand in tables; no two branches of the loop have a word in
common, so their order does not matter. Opening files and reading numbers and
variable files are parameters.
-/

namespace Kura.Engine

/-- What the command line needs of the system and of the C library. -/
structure CliEnv where
  atof : String → Double
  canRead : String → Bool
  canAppend : String → Bool
  varFileOk : String → Bool
  listVars : String → Int
  listProfiles : String → Int

/-- Exit status of a call that is not understood. -/
def exitUsage : Int := 64

/-- The words of the level table. -/
def levelTable : List String :=
  ["1b", "1a", "2b", "2u", "2a", "3b", "3u", "3a", "4", "4f", "4e", "x1a", "x3", "x4", "x6",
    "e1", "vt1", "vt3", "x4p", "x5g", "x5n", "x5pg", "x6n", "x6p", "vt2"]

/-- Lower case of the ASCII letters. -/
def lowerOf (s : String) : String :=
  String.ofList (s.toList.map fun c => if 'A' ≤ c ∧ c ≤ 'Z' then Char.ofNat (c.toNat + 32) else c)

/-- The parts of a text between separators. -/
def splitAt (sep : Char) : List Char → List (List Char)
  | [] => [[]]
  | c :: cs =>
      if c = sep then [] :: splitAt sep cs
      else match splitAt sep cs with
      | [] => [[c]]
      | w :: ws => (c :: w) :: ws

/-- The kinds of objects a colour conversion can be limited to. -/
def objectWords : List String :=
  ["text", "vector", "shading", "shadings", "images", "lossy", "lossless"]

/-- What an option checks about its value before the loop goes on. -/
inductive Check where
  | free
  | level
  | readable
  | resolution (code : Int)
  | maxPpi
  | inkLimit
  | assignment (code : Int)
  | intent
  | objects
  | varFile
  | bookmarks
  | appendable
  | listVars
  | listProfiles
  deriving DecidableEq

/-- The exit status of a value that does not pass; none if the loop goes on. -/
def Check.exit (env : CliEnv) (v : String) : Check → Option Int
  | .free => none
  | .level => if v = "ua1" ∨ levelTable.contains v then none else some exitUsage
  | .readable => if env.canRead v then none else some 1
  | .resolution code =>
      if (env.atof v).lt (.fin 24) ∨ Double.lt (.fin 1200) (env.atof v) then some code else none
  | .maxPpi =>
      if ¬ Double.le (.fin 0) (env.atof v) ∨ Double.lt (.fin 10000) (env.atof v) then
        some exitUsage
      else none
  | .inkLimit =>
      if Double.le (.fin 100) (env.atof v) ∧ (env.atof v).le (.fin 400) then none
      else some exitUsage
  | .assignment code => if v.toList.contains '=' then none else some code
  | .intent =>
      if ["perceptual", "relative", "saturation", "absolute"].contains (lowerOf v) then none
      else some exitUsage
  | .objects =>
      if (splitAt ',' (lowerOf v).toList).all fun w =>
        w.isEmpty || objectWords.contains (String.ofList w) then none
      else some exitUsage
  | .varFile =>
      if env.canRead v then if env.varFileOk v then none else some exitUsage else some 1
  | .bookmarks => if v = "headings" ∨ env.canRead v then none else some 1
  | .appendable => if env.canAppend v then none else some 1
  | .listVars => some (env.listVars v)
  | .listProfiles => some (env.listProfiles v)

/-- Words that print something and end. -/
def infoOptions : List String := ["--version", "-v", "--help", "-h"]

/-- Options that stand alone. -/
def aloneOptions : List String :=
  ["--check", "--analyze", "--outline-fonts", "--ocr", "--extract-invoice", "--check-invoice",
    "--verify-password", "--batch", "--recursive", "-r", "--watch", "--overwrite", "-w",
    "--embed-source", "--rasterize-pages", "--allow-visual-risk", "--ua", "--visible-layers",
    "--dual", "--no-bpc", "--keep-spots", "--gray-to-k", "--merge-inputs", "--reconvert",
    "--fallback-no-text", "--quick", "-q", "--certify", "--only-pdfa"]

/-- Options that take the next word, with what they check about it. -/
def valueOptions : List (String × Check) :=
  [("--level", .level), ("--profile", .readable), ("--ocr-engine", .free), ("--sign", .free),
    ("--sign-password", .free), ("--sign-name", .free), ("--sign-reason", .free),
    ("--sign-location", .free), ("--out-dir", .free), ("-d", .free), ("--suffix", .free),
    ("-s", .free), ("--jobs", .free), ("-j", .free), ("--embed-source-name", .free),
    ("--raster-dpi", .resolution 1), ("--font-folder", .free), ("--substitute", .assignment 1),
    ("--default-rgb", .readable), ("--default-cmyk", .readable), ("--default-gray", .readable),
    ("--lang", .free), ("--output-condition", .free), ("--output-condition-info", .free),
    ("--registry", .free), ("--vt-records", .free), ("--dest-profile", .readable),
    ("--einvoice", .readable), ("--attach-xml", .readable), ("--attach-xml-name", .free),
    ("--facturx-profile", .free), ("--image-max-ppi", .maxPpi), ("--password", .free),
    ("--profile-url", .free), ("--hits-per-page", .free), ("--hits-per-doc", .free),
    ("--convert-colors", .free), ("--intent", .intent), ("--convert-objects", .objects),
    ("--rgb-gray-to-k", .free), ("--ink-limit", .inkLimit), ("--device-link", .readable),
    ("--var", .assignment exitUsage), ("--var-file", .varFile), ("--pages", .free),
    ("--fallback-raster", .resolution exitUsage), ("--fallback-pages", .resolution exitUsage),
    ("--bookmarks", .bookmarks), ("--trace", .appendable), ("--list-vars", .listVars),
    ("--list-profiles", .listProfiles), ("--report", .free), ("--report-dict", .free),
    ("--report-lang", .free), ("--job-id", .free), ("--icc-folder", .free)]

/-- What the loop makes of a word, given the word after it. -/
inductive Reading where
  | exit (code : Int)
  | alone
  | value (v : String)
  | positional

/-- One turn of the loop. -/
def readWord (env : CliEnv) (arg : String) (after : Option String) : Reading :=
  if infoOptions.contains arg then .exit 0
  else if aloneOptions.contains arg then .alone
  else match valueOptions.find? fun o => o.1 == arg, after with
  | some o, some v =>
      match o.2.exit env v with
      | some code => .exit code
      | none => .value v
  | _, _ => .positional

/-- What the loop has read: the options with their values and the rest, in
order. -/
structure CliState where
  options : List (String × Option String)
  positional : List String
  deriving DecidableEq

namespace CliState

/-- Nothing read yet. -/
def empty : CliState := ⟨[], []⟩

/-- An option was read. -/
def note (st : CliState) (arg : String) (v : Option String) : CliState :=
  { st with options := st.options ++ [(arg, v)] }

/-- A positional word was read. -/
def push (st : CliState) (arg : String) : CliState :=
  { st with positional := st.positional ++ [arg] }

end CliState

/-- The argument loop; it may end the program with an exit status. -/
def argumentLoop (env : CliEnv) (st : CliState) : List String → Except Int CliState
  | [] => .ok st
  | [arg] =>
      match readWord env arg none with
      | .exit code => .error code
      | .alone => .ok (st.note arg none)
      | .value v => .ok (st.note arg (some v))
      | .positional => .ok (st.push arg)
  | arg :: after :: rest =>
      match readWord env arg (some after) with
      | .exit code => .error code
      | .alone => argumentLoop env (st.note arg none) (after :: rest)
      | .value v => argumentLoop env (st.note arg (some v)) rest
      | .positional => argumentLoop env (st.push arg) (after :: rest)

/-- What the program goes on to do after its command line. -/
inductive CliEnd where
  | tool (words : List String)
  | compare (a b : String)
  | exit (code : Int)
  | merge (st : CliState)
  | run (options : List (String × Option String)) (input output : String)
  deriving DecidableEq

/-- Input and output among the positional words. -/
def placeInputs (st : CliState) : CliEnd :=
  if st.options.contains ("--merge-inputs", none) ∧ 2 ≤ st.positional.length then .merge st
  else match st.positional with
  | [] => .run st.options "" ""
  | [i] => .run st.options i ""
  | [i, o] => .run st.options i o
  | _ => .exit exitUsage

/-- The command line, from its first word to the positional arguments. -/
def commandLine (env : CliEnv) (words : List String) : CliEnd :=
  match words with
  | "tool" :: rest => .tool rest
  | "--compare" :: a :: b :: _ => .compare a b
  | _ =>
      match argumentLoop env .empty words with
      | .error code => .exit code
      | .ok st => placeInputs st

end Kura.Engine
