import Kura.Base.Chunks
import Kura.Base.JsonText
import Kura.Server.Queue

/-!
# Bundles on the wire

A message travels with files: a length in four bytes, a JSON header of that
length with the message and a table of names and sizes, and the contents of
the files one after the other. The reading side knows only the declared sizes
and gets the bytes in whatever chunks the network makes of them.

## Implementation notes

A message is read from the object form only, and a member that appears twice
is an error. Files do not change while they are sent; creating a file in the
target directory succeeds. The length of the header is cut to 32 bits where
it is written, as the cast of the source does.
-/

namespace Kura.Server

open Kura.Base

/-- Types that are sent as JSON. `Fits` are the values the source's own type
can hold. -/
class Message (T : Type) where
  toJson : T → Json
  fromJson : Json → Option T
  Fits : T → Prop
  fromJson_toJson : ∀ x, Fits x → fromJson (toJson x) = some x
  within : ∀ x, Fits x → (toJson x).Within 3

/-- The kind a word stands for. -/
def Kind.fromJson : Json → Option Kind
  | .str "convert" => some .convert
  | .str "check" => some .check
  | .str "verify" => some .verify
  | _ => none

theorem Kind.fromJson_kindStr (k : Kind) : Kind.fromJson (.str (kindStr k)) = some k := by
  cases k <;> rfl

/-- An argument read from its tagged object. -/
def Arg.fromJson : Json → Option Arg
  | .obj ms =>
      (Json.field? ms "v").bind Json.string? |>.bind fun v =>
        match Json.field? ms "t" with
        | some (.str "Lit") => some (.lit v)
        | some (.str "File") => some (.file v)
        | some (.str "Out") => some (.out v)
        | some (.str "Profile") => some (.profile v)
        | _ => none
  | _ => none

theorem Arg.fromJson_toJson (a : Arg) : Arg.fromJson a.toJson = some a := by
  cases a <;> simp [Arg.toJson, Arg.fromJson, Json.field?, Json.string?]

theorem argsJson_list (args : List Arg) : Json.list? Arg.fromJson (argsJson args) = some args :=
  Json.list?_map Arg.fromJson_toJson args

theorem argsJson_within (args : List Arg) : (argsJson args).Within 2 := by
  intro x hx
  obtain ⟨a, -, rfl⟩ := List.mem_map.mp hx
  cases a <;> simp [Arg.toJson, Json.Within]

/-- The result of a run as JSON. -/
def RunResult.toJson (r : RunResult) : Json :=
  .obj [("code", match r.code with
      | some n => .num n
      | none => .null),
    ("out", .str r.out), ("err", .str r.err), ("timed_out", .bool r.timedOut)]

/-- The exit code, which may be absent. -/
def codeFromJson : Option Json → Option (Option Int)
  | none | some .null => some none
  | some j => (Json.int? (-2 ^ 31) (2 ^ 31) j).map some

/-- The result of a run from JSON. -/
def RunResult.fromJson : Json → Option RunResult
  | .obj ms => do
      let code ← codeFromJson (Json.field? ms "code")
      let out ← (Json.field? ms "out").bind Json.string?
      let err ← (Json.field? ms "err").bind Json.string?
      let timedOut ← (Json.field? ms "timed_out").bind Json.bool?
      some ⟨code, out, err, timedOut⟩
  | _ => none

/-- Exit codes are 32-bit numbers. -/
def RunResult.Fits (r : RunResult) : Prop := ∀ n ∈ r.code, -2 ^ 31 ≤ n ∧ n < 2 ^ 31

/-- Signed numbers of 64 bits are below this. -/
def i64Bound : Nat := 2 ^ 63

/-- Unsigned numbers of 64 bits are below this. -/
def u64Bound : Nat := 2 ^ 64

/-- A lease as JSON. -/
def LeaseMeta.toJson (m : LeaseMeta) : Json :=
  .obj [("id", .num m.id), ("attempt", .num m.attempt), ("kind", .str (kindStr m.kind)),
    ("args", argsJson m.args), ("timeout_ms", .num m.timeoutMs)]

/-- A lease from JSON. -/
def LeaseMeta.fromJson : Json → Option LeaseMeta
  | .obj ms => do
      let id ← Json.natField? ms "id" i64Bound
      let attempt ← Json.natField? ms "attempt" i64Bound
      let kind ← (Json.field? ms "kind").bind Kind.fromJson
      let args ← (Json.field? ms "args").bind (Json.list? Arg.fromJson)
      let timeout ← Json.natField? ms "timeout_ms" u64Bound
      some ⟨id, attempt, kind, args, timeout⟩
  | _ => none

/-- Ids and attempts are positive numbers of 63 bits, timeouts have 64. -/
structure LeaseMeta.Fits (m : LeaseMeta) : Prop where
  id : m.id < i64Bound
  attempt : m.attempt < i64Bound
  timeout : m.timeoutMs < u64Bound

/-- A job that a front end hands to the coordinator. -/
structure Submit where
  kind : Kind
  args : List Arg
  name : String
  dedupe : Bool

/-- A submission as JSON. -/
def Submit.toJson (s : Submit) : Json :=
  .obj [("kind", .str (kindStr s.kind)), ("args", argsJson s.args), ("name", .str s.name),
    ("dedupe", .bool s.dedupe)]

/-- A submission from JSON. -/
def Submit.fromJson : Json → Option Submit
  | .obj ms => do
      let kind ← (Json.field? ms "kind").bind Kind.fromJson
      let args ← (Json.field? ms "args").bind (Json.list? Arg.fromJson)
      let name ← (Json.field? ms "name").bind Json.string?
      let dedupe ← (Json.field? ms "dedupe").bind Json.bool?
      some ⟨kind, args, name, dedupe⟩
  | _ => none

instance : Message RunResult where
  toJson := RunResult.toJson
  fromJson := RunResult.fromJson
  Fits := RunResult.Fits
  fromJson_toJson := by
    rintro ⟨code, out, err, timedOut⟩ hfits
    cases code with
    | none =>
        simp [RunResult.toJson, RunResult.fromJson, Json.field?, codeFromJson, Json.string?,
          Json.bool?]
    | some n =>
        have hcode : codeFromJson (some (.num n)) = some (some n) := by
          simp only [codeFromJson, Json.int?_num (hfits n rfl), Option.map_some]
        simp [RunResult.toJson, RunResult.fromJson, Json.field?, hcode, Json.string?, Json.bool?]
  within := by
    rintro ⟨code, out, err, timedOut⟩ hfits
    cases code with
    | none => simp [RunResult.toJson, Json.Within]
    | some n =>
        have hn : -2 ^ 31 ≤ n ∧ n < 2 ^ 31 := hfits n rfl
        simp only [RunResult.toJson, Json.Within, List.mem_cons, forall_eq_or_imp,
          List.not_mem_nil, false_implies, implies_true, and_true]
        omega

theorem LeaseMeta.fromJson_toJson {m : LeaseMeta} (h : m.Fits) :
    LeaseMeta.fromJson m.toJson = some m := by
  obtain ⟨id, attempt, kind, args, timeout⟩ := m
  obtain ⟨hid, hattempt, htimeout⟩ := h
  simp only [LeaseMeta.toJson, LeaseMeta.fromJson]
  rw [Json.natField?_eq hid (by simp [Json.field?]),
    Json.natField?_eq hattempt (by simp [Json.field?]),
    Json.natField?_eq htimeout (by simp [Json.field?])]
  simp [Json.field?, Kind.fromJson_kindStr, argsJson_list]

theorem LeaseMeta.within {m : LeaseMeta} (h : m.Fits) : m.toJson.Within 3 := by
  obtain ⟨id, attempt, kind, args, timeout⟩ := m
  obtain ⟨hid, hattempt, htimeout⟩ := h
  have hargs := argsJson_within args
  simp only [i64Bound, u64Bound] at hid hattempt htimeout
  simp only [LeaseMeta.toJson, Json.Within, List.mem_cons, forall_eq_or_imp,
    List.not_mem_nil, false_implies, implies_true, and_true, true_and]
  refine ⟨?_, ?_, hargs, ?_⟩ <;> omega

instance : Message LeaseMeta where
  toJson := LeaseMeta.toJson
  fromJson := LeaseMeta.fromJson
  Fits := LeaseMeta.Fits
  fromJson_toJson _ h := LeaseMeta.fromJson_toJson h
  within _ h := LeaseMeta.within h

instance : Message Submit where
  toJson := Submit.toJson
  fromJson := Submit.fromJson
  Fits _ := True
  fromJson_toJson := by
    rintro ⟨kind, args, name, dedupe⟩ -
    simp [Submit.toJson, Submit.fromJson, Json.field?, Kind.fromJson_kindStr, argsJson_list,
      Json.string?, Json.bool?]
  within := by
    rintro ⟨kind, args, name, dedupe⟩ -
    have hargs := argsJson_within args
    simp [Submit.toJson, Json.Within, hargs]

/-- How much of the standard output of a run is kept. -/
def outCap : Nat := 256 * 1024 * 1024

/-- How much of the standard error of a run is kept. -/
def errCap : Nat := 65536

/-- Bytes that continue a character. -/
def isContinuation (b : UInt8) : Bool := 0x80 ≤ b && b ≤ 0xbf

/-- Stands for bytes that are no character. -/
def replacement : Char := Char.ofNat 0xfffd

/-- Bytes that may follow the first of a character of three bytes. -/
def secondOfThree (b x : UInt8) : Bool :=
  if b = 0xe0 then 0xa0 ≤ x && x ≤ 0xbf
  else if b = 0xed then 0x80 ≤ x && x ≤ 0x9f
  else isContinuation x

/-- Bytes that may follow the first of a character of four bytes. -/
def secondOfFour (b x : UInt8) : Bool :=
  if b = 0xf0 then 0x90 ≤ x && x ≤ 0xbf
  else if b = 0xf4 then 0x80 ≤ x && x ≤ 0x8f
  else isContinuation x

/-- The character that starts with a byte, and how many further bytes it
takes; of a broken one, the bytes that could have been part of it. -/
def firstChar (b : UInt8) (rest : Bytes) : Char × Nat :=
  let n := b.toNat
  if b < 0x80 then (Char.ofNat n, 0)
  else if 0xc2 ≤ b ∧ b ≤ 0xdf then
    match rest with
    | x :: _ =>
        if isContinuation x then (Char.ofNat (n % 32 * 64 + x.toNat % 64), 1) else (replacement, 0)
    | [] => (replacement, 0)
  else if 0xe0 ≤ b ∧ b ≤ 0xef then
    match rest with
    | x :: y :: _ =>
        if secondOfThree b x then
          if isContinuation y then
            (Char.ofNat (n % 16 * 4096 + x.toNat % 64 * 64 + y.toNat % 64), 2)
          else (replacement, 1)
        else (replacement, 0)
    | [x] => (replacement, if secondOfThree b x then 1 else 0)
    | [] => (replacement, 0)
  else if 0xf0 ≤ b ∧ b ≤ 0xf4 then
    match rest with
    | x :: y :: z :: _ =>
        if secondOfFour b x then
          if isContinuation y then
            if isContinuation z then
              (Char.ofNat (n % 8 * 262144 + x.toNat % 64 * 4096 + y.toNat % 64 * 64 +
                z.toNat % 64), 3)
            else (replacement, 2)
          else (replacement, 1)
        else (replacement, 0)
    | [x, y] =>
        (replacement, if secondOfFour b x then if isContinuation y then 2 else 1 else 0)
    | [x] => (replacement, if secondOfFour b x then 1 else 0)
    | [] => (replacement, 0)
  else (replacement, 0)

/-- Bytes as text; what is no character is replaced. -/
def fromUtf8Lossy : Bytes → List Char
  | [] => []
  | b :: rest =>
      let c := firstChar b rest
      c.1 :: fromUtf8Lossy (rest.drop c.2)
termination_by bs => bs.length
decreasing_by
  simp only [List.length_drop, List.length_cons]
  omega

/-- How a run of the engine ends. -/
inductive RunEnd where
  | unspawned (err : String)
  | timedOut
  | exited (code : Option Int32) (out err : Bytes)

/-- The result of a run of the engine. -/
def runKura : RunEnd → RunResult
  | .unspawned err => .lost err
  | .timedOut => ⟨none, "", "", true⟩
  | .exited code out err =>
      ⟨code.map Int32.toInt, String.ofList (fromUtf8Lossy (out.take outCap)),
        String.ofList (fromUtf8Lossy (err.take errCap)), false⟩

theorem runKura_fits (e : RunEnd) : (runKura e).Fits := by
  intro n hn
  cases e with
  | unspawned err =>
      obtain rfl : -1 = n := Option.some.inj hn
      decide
  | timedOut => cases hn
  | exited code out err =>
      obtain ⟨c, -, rfl⟩ := Option.map_eq_some_iff.mp hn
      exact ⟨c.le_toInt, c.toInt_lt⟩

/-- A file of a bundle as its header names it. -/
structure Entry where
  name : String
  size : Nat

/-- An entry as JSON. -/
def Entry.toJson (e : Entry) : Json := .obj [("name", .str e.name), ("size", .num e.size)]

/-- An entry from JSON. -/
def Entry.fromJson : Json → Option Entry
  | .obj ms => do
      let name ← (Json.field? ms "name").bind Json.string?
      let size ← Json.natField? ms "size" u64Bound
      some ⟨name, size⟩
  | _ => none

section

variable {T : Type} [Message T]

/-- The header of a bundle. -/
def headJson (x : T) (files : List Entry) : Json :=
  .obj [("meta", Message.toJson x), ("files", .arr (files.map Entry.toJson))]

/-- The message and the table of a header. -/
def headFromJson (T : Type) [Message T] : Json → Option (T × List Entry)
  | .obj ms => do
      let x ← (Json.field? ms "meta").bind Message.fromJson
      let files ← (Json.field? ms "files").bind (Json.list? Entry.fromJson)
      some (x, files)
  | _ => none

/-- The longest header that is read. -/
def maxHead : Nat := 64 * 1024 * 1024

/-- The named files with their contents; undefined where one is missing. -/
def openFiles (dir : Dir) (names : List String) : Option (List (String × Bytes)) :=
  names.mapM fun n => (dir.read n).map fun b => (n, b)

/-- The table of a bundle. -/
def entries (files : List (String × Bytes)) : List Entry :=
  files.map fun f => ⟨f.1, f.2.length⟩

/-- The bytes of a bundle. -/
def bundle (x : T) (files : List (String × Bytes)) : Bytes :=
  let head := utf8 (headJson x (entries files)).text
  toBeBytes (head.length % 2 ^ 32) ++ head ++ (files.map Prod.snd).flatten

/-- Send a message with files. -/
def encode (x : T) (dir : Dir) (names : List String) : Option Bytes :=
  (openFiles dir names).map (bundle x)

/-- Why a bundle is not taken. -/
inductive DecodeError where
  | unexpectedEof
  | headTooLarge
  | badHead
  | rejected (name : String)
  | truncated

/-- Addition of 64-bit numbers that stays at the largest. -/
def saturatingAdd (a b : Nat) : Nat := min (a + b) (u64Bound - 1)

/-- Receive the files of a bundle into a directory. -/
def decodeFiles (maxTotal total : Nat) (dir : Dir) (chunks : List Bytes) :
    List Entry → Dir × Except DecodeError (List String)
  | [] => (dir, .ok [])
  | e :: es =>
      let total' := saturatingAdd total e.size
      if !safeName e.name || maxTotal < total' then (dir, .error (.rejected e.name))
      else
        let copied := readUpTo e.size chunks
        let dir' := dir.write e.name copied.1
        if copied.1.length ≠ e.size then (dir', .error .truncated)
        else
          let out := decodeFiles maxTotal total' dir' copied.2 es
          (out.1, out.2.map fun names => e.name :: names)

/-- Receive a bundle. -/
def decode (T : Type) [Message T] (reader : JsonReader) (chunks : List Bytes) (dir : Dir)
    (maxTotal : Nat) : Dir × Except DecodeError (T × List String) :=
  match readExact 4 chunks with
  | none => (dir, .error .unexpectedEof)
  | some (len, rest) =>
      if maxHead < fromBeBytes len then (dir, .error .headTooLarge)
      else match readExact (fromBeBytes len) rest with
      | none => (dir, .error .unexpectedEof)
      | some (head, body) =>
          match (reader.read head).bind (headFromJson T) with
          | none => (dir, .error .badHead)
          | some (x, files) =>
              let out := decodeFiles maxTotal 0 dir body files
              (out.1, out.2.map fun names => (x, names))

end

end Kura.Server
