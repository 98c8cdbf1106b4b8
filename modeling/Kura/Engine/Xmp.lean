import Kura.Base.Search
import Kura.Engine.Content
import Kura.Engine.Jobs
import Kura.Engine.XmpDate

/-!
# The metadata of a converted document

`collectInfo` reads the document information, completes it as the level asks
and puts the dictionary in order. `passMetadata` writes a new XMP packet from
what was collected.

## Implementation notes

A text is a list of characters, one for each byte. Of a document are kept the
information dictionary, the text of its XMP packet and whether the catalog has
`/PieceInfo`. The namespace of an invoice is fixed by its standard; the rest of
its data may be set by the caller. The clock is a field of the context.
-/

namespace Kura.Engine.Xmp

open Kura.Base (findFrom)
open Kura.Engine.Jobs
open Kura.Engine.XmpDate (parseDateFlexible)

/-- The standards of invoices. -/
inductive Standard where
  | facturX | orderX | zugferd1 | zugferd2 | xrechnung
  deriving DecidableEq

/-- The data of an invoice that the packet states. -/
structure InvoiceProfile where
  standard : Standard
  profile : List Char
  filename : List Char
  documentType : List Char

namespace InvoiceProfile

def standardName (inv : InvoiceProfile) : List Char :=
  match inv.standard with
  | .facturX => "Factur-X".toList
  | .orderX => "Order-X".toList
  | .zugferd1 => "ZUGFeRD 1.0".toList
  | .zugferd2 => "ZUGFeRD 2.0".toList
  | .xrechnung => "XRechnung".toList

/-- The name of the namespace. -/
def px (inv : InvoiceProfile) : List Char :=
  match inv.standard with
  | .zugferd1 | .zugferd2 => "zf".toList
  | _ => "fx".toList

def nsUri (inv : InvoiceProfile) : List Char :=
  match inv.standard with
  | .orderX => "urn:factur-x:pdfa:CrossIndustryDocument:1p0#".toList
  | .zugferd1 => "urn:ferd:pdfa:CrossIndustryDocument:invoice:1p0#".toList
  | .zugferd2 => "urn:zugferd:pdfa:CrossIndustryDocument:invoice:1p0#".toList
  | _ => "urn:factur-x:pdfa:CrossIndustryDocument:invoice:1p0#".toList

def version (inv : InvoiceProfile) : List Char :=
  match inv.standard with
  | .zugferd2 => "2p0".toList
  | _ => "1.0".toList

def schemaName (inv : InvoiceProfile) : List Char :=
  match inv.standard with
  | .zugferd1 | .zugferd2 => "ZUGFeRD PDFA Extension Schema".toList
  | _ => "Factur-X PDFA Extension Schema".toList

end InvoiceProfile

/-- The options that are read, the invoice to attach and the date of the clock or what overrides
it. -/
structure Ctx where
  level : Level
  ua : Bool := false
  dualPrint : Bool := false
  verifyOnly : Bool := false
  lang : List Char := []
  inv : Option InvoiceProfile := none
  now : List Char

namespace Ctx

def part (c : Ctx) : Nat := levelPart c.level

def conf (c : Ctx) : Option Char := (levelRow c.level).conformance

def isA (c : Ctx) : Bool := levelFamily c.level = .PDFA

def isX (c : Ctx) : Bool := levelFamily c.level = .PDFX ∨ levelFamily c.level = .PDFVT

def isE (c : Ctx) : Bool := levelFamily c.level = .PDFE

def isVT (c : Ctx) : Bool := levelFamily c.level = .PDFVT

def dualX (c : Ctx) : Bool := c.dualPrint && c.isA && (c.part = 2 ∨ c.part = 4)

def pdf20Print (c : Ctx) : Bool :=
  c.level = .X6 ∨ c.level = .VT3 ∨ c.level = .X6N ∨ c.level = .X6P

def ua2 (c : Ctx) : Bool := c.ua && c.isA && c.part = 4

def docLang (c : Ctx) : List Char := if c.lang = [] then "en".toList else c.lang

/-- The metadata is in XMP only. -/
def x20 (c : Ctx) : Bool := c.pdf20Print || (c.dualX && 4 ≤ c.part)

end Ctx

def xVersionString (c : Ctx) : List Char :=
  match c.level with
  | .X1A => "PDF/X-1a:2003".toList
  | .X3 => "PDF/X-3:2003".toList
  | .X4P => "PDF/X-4p".toList
  | .X5G => "PDF/X-5g".toList
  | .X5N => "PDF/X-5n".toList
  | .X5PG => "PDF/X-5pg".toList
  | .X6N => "PDF/X-6n".toList
  | .X6P => "PDF/X-6p".toList
  | _ => if c.x20 then "PDF/X-6".toList else "PDF/X-4".toList

def vtVersionString (c : Ctx) : List Char :=
  if c.level = .VT2 then "PDF/VT-2".toList
  else if c.pdf20Print then "PDF/VT-3".toList
  else "PDF/VT-1".toList

/-- The version markers that a level leaves as they are. -/
def xVersionAcceptable (c : Ctx) (v : List Char) : Bool :=
  let among (vs : List String) : Bool := vs.any fun w => w.toList = v
  match c.level with
  | .X1A => among ["PDF/X-1a:2001", "PDF/X-1a:2003"]
  | .X3 => among ["PDF/X-3:2002", "PDF/X-3:2003"]
  | .X4 => among ["PDF/X-4", "PDF/X-4:2010"]
  | .X4P => among ["PDF/X-4p", "PDF/X-4p:2010"]
  | .X5G => among ["PDF/X-5g", "PDF/X-5g:2010"]
  | .X5N => among ["PDF/X-5n", "PDF/X-5n:2010"]
  | .X5PG => among ["PDF/X-5pg", "PDF/X-5pg:2010"]
  | .X6 => among ["PDF/X-6"]
  | .X6N => among ["PDF/X-6n"]
  | .X6P => among ["PDF/X-6p"]
  | .VT1 => among ["PDF/X-4", "PDF/X-4:2010"]
  | .VT2 => among ["PDF/X-4p", "PDF/X-4p:2010", "PDF/X-5g", "PDF/X-5g:2010", "PDF/X-5pg",
      "PDF/X-5pg:2010"]
  | .VT3 => among ["PDF/X-6"]
  | _ => true

/-- A control character that no text keeps. -/
def dropped (c : Char) : Bool := c.toNat < 0x20 && c ≠ '\t' && c ≠ '\n' && c ≠ '\r'

def escapeChar (c : Char) : List Char :=
  if c = '&' then "&amp;".toList
  else if c = '<' then "&lt;".toList
  else if c = '>' then "&gt;".toList
  else if c = '"' then "&quot;".toList
  else if dropped c then []
  else [c]

def xmlEscape (s : List Char) : List Char := s.flatMap escapeChar

/-- A value of the document information; strings are in UTF-8. -/
inductive Value where
  | string (s : List Char)
  | name (n : List Char)
  | other
  deriving DecidableEq

/-- The entries of a dictionary. -/
abbrev Dict := List (String × Value)

def replaceKey (d : Dict) (k : String) (v : Value) : Dict := (k, v) :: d.filter fun e => e.1 ≠ k

/-- A text without the characters that are dropped. -/
def cleaned (s : List Char) : List Char := s.filter fun c => !dropped c

def cleanText : Option Value → List Char
  | some (.string s) => cleaned s
  | _ => []

def nameOf : Option Value → List Char
  | some (.name n) => n
  | _ => []

/-- The text of an element, or the value of an attribute. -/
def xmpElementText (xmp localName : List Char) : List Char :=
  let behind (stop : List Char) (mark : Char) : Option (List Char) := do
    let p ← findFrom (localName ++ stop) xmp 0
    let start := p + localName.length + stop.length
    let tail ← findFrom [mark] xmp start
    return (xmp.drop start).take (tail - start)
  match behind [ '>' ] '<' with
  | some text => text
  | none => (behind [ '=', '"' ] '"').getD []

/-- The text in the first item of an element, up to the next tag; an empty one if there is none. -/
def itemText (element ending item xmp : List Char) : List Char :=
  let found := do
    let tp ← findFrom element xmp 0
    let tend ← findFrom ending xmp tp
    let li ← findFrom item xmp tp
    if tend < li then none
    else
      let opening ← findFrom [ '>' ] xmp li
      if tend < opening then none
      else
        let close ← findFrom [ '<' ] xmp (opening + 1)
        if close ≤ tend ∧ opening + 1 < close then
          some ((xmp.drop (opening + 1)).take (close - opening - 1))
        else none
  found.getD []

/-- The title in the old packet. -/
def oldTitle (xmpOld : List Char) : List Char :=
  itemText "<dc:title".toList "</dc:title".toList "<rdf:li".toList xmpOld

def isXmpDate (s : List Char) : Bool :=
  4 ≤ s.length && s.length ≤ 40 && (s.take 4).all Char.isDigit &&
    s.all fun c => c.isDigit || c ∈ ['-', ':', 'T', 'Z', '+', '.']

structure InfoData where
  title : List Char := []
  author : List Char := []
  subject : List Char := []
  keywords : List Char := []
  creator : List Char := []
  producer : List Char := []
  createIso : List Char := []
  modifyIso : List Char := []
  trapped : Option Bool := none

/-- Something that is reported. -/
structure Note where
  code : String
  detail : List Char
  fixed : Bool

def noteIf (b : Bool) (code : String) (detail : List Char) (fixed : Bool) : List Note :=
  if b then [⟨code, detail, fixed⟩] else []

/-- A document: its information dictionary, the text of its packet and whether the catalog has
`/PieceInfo`. -/
structure Doc where
  info : Option Dict := none
  metadata : List Char := []
  pieceInfo : Bool := false

/-- What was collected, the document and what is reported. -/
structure Collected where
  data : InfoData
  doc : Doc
  notes : List Note

def kProducer : List Char := "BentoPDF Kura Engine 1.3.0".toList

def kUntitled : List Char := "Untitled document".toList

/-- A date of the dictionary in both forms; no forms if there is none or it cannot be read. -/
def readDate (raw : List Char) : List Char × List Char := (parseDateFlexible raw).getD ([], [])

/-- A date is there and cannot be read. -/
def badDate (raw : List Char) : Bool := raw ≠ [] && (parseDateFlexible raw).isNone

/-- The texts and dates of the dictionary. -/
def fromInfo (info : Dict) : InfoData where
  title := cleanText (info.lookup "/Title")
  author := cleanText (info.lookup "/Author")
  subject := cleanText (info.lookup "/Subject")
  keywords := cleanText (info.lookup "/Keywords")
  creator := cleanText (info.lookup "/Creator")
  producer := kProducer
  createIso := (readDate (cleanText (info.lookup "/CreationDate"))).1
  modifyIso := (readDate (cleanText (info.lookup "/ModDate"))).1

def canonCreate (info : Dict) : List Char := (readDate (cleanText (info.lookup "/CreationDate"))).2

def canonModify (info : Dict) : List Char := (readDate (cleanText (info.lookup "/ModDate"))).2

/-- The dictionary with the texts that are not empty. -/
def cleanInfo (info : Dict) : Dict :=
  let d := fromInfo info
  let entries := [("/Title", d.title), ("/Author", d.author), ("/Subject", d.subject),
    ("/Keywords", d.keywords), ("/Creator", d.creator), ("/Producer", d.producer),
    ("/CreationDate", if d.createIso = [] then [] else canonCreate info),
    ("/ModDate", if d.modifyIso = [] then [] else canonModify info)]
  (entries.filter fun e => e.2 ≠ []).map fun e => (e.1, .string e.2)

/-- What the old packet has and the dictionary has not. -/
def fromXmp (d : InfoData) (xmpOld : List Char) : InfoData :=
  let c := xmpElementText xmpOld "xmp:CreateDate".toList
  let m := xmpElementText xmpOld "xmp:ModifyDate".toList
  { d with
    createIso := if d.createIso = [] && isXmpDate c then c else d.createIso
    modifyIso := if d.modifyIso = [] && isXmpDate m then m else d.modifyIso
    title := if d.title = [] then oldTitle xmpOld else d.title }

/-- A title and dates for what is missing. -/
def synthesize (c : Ctx) (d : InfoData) : InfoData :=
  { d with
    title := if d.title = [] then kUntitled else d.title
    createIso := if d.createIso = [] then (readDate c.now).1 else d.createIso
    modifyIso := if d.modifyIso = [] then (readDate c.now).1 else d.modifyIso }

/-- The dictionary with the entries that were added. -/
def withSynthesized (c : Ctx) (d : InfoData) (clean : Dict) : Dict :=
  let clean := if d.title = [] then replaceKey clean "/Title" (.string kUntitled) else clean
  let clean := if d.createIso = [] then replaceKey clean "/CreationDate" (.string c.now) else clean
  if d.modifyIso = [] then replaceKey clean "/ModDate" (.string c.now) else clean

/-- A version marker was set or replaced. -/
def versionNote (code : String) (declared version : List Char) : Note :=
  ⟨code,
    if declared = [] then "recorded the ".toList ++ version ++ " version marker".toList
    else "replaced the declared version marker \"".toList ++ declared ++
      "\" with ".toList ++ version,
    true⟩

/-- What is reported of additions and version markers. -/
def printNotes (c : Ctx) (d : InfoData) (declared declaredVt : List Char) : List Note :=
  noteIf (d.title = []) "TITLE_SYNTHESIZED"
      "PDF/X requires a document title; set placeholder \"Untitled document\"".toList true ++
    noteIf (d.createIso = []) "DOCINFO_DATE_SYNTHESIZED" "added required /CreationDate".toList
      true ++
    noteIf (d.modifyIso = []) "DOCINFO_DATE_SYNTHESIZED" "added required /ModDate".toList true ++
    (if xVersionAcceptable c declared then []
      else [versionNote "X_VERSION_SET" declared (xVersionString c)]) ++
    (if c.isVT && declaredVt ≠ vtVersionString c then
      [versionNote "VT_VERSION_SET" declaredVt (vtVersionString c)]
    else [])

/-- Levels with their metadata in XMP only: the dictionary is removed, or reduced to the date that
goes with `/PieceInfo`. -/
def collectX20 (c : Ctx) (doc : Doc) (info : Dict) (notes : List Note) : Collected :=
  let old := fromXmp (fromInfo info) doc.metadata
  let d := synthesize c old
  let notes := notes ++ printNotes c old
    (xmpElementText doc.metadata "GTS_PDFXVersion".toList)
    (xmpElementText doc.metadata "GTS_PDFVTVersion".toList)
  let hadInfo : Bool := info ≠ []
  if doc.pieceInfo && d.modifyIso ≠ [] && canonModify info ≠ [] then
    ⟨d, { doc with info := some [("/ModDate", .string (canonModify info))] },
      notes ++ noteIf (hadInfo && 1 < info.length) "DOCINFO_REDUCED"
        "kept only /ModDate in document info (required alongside /PieceInfo)".toList true⟩
  else if hadInfo then
    ⟨d, { doc with info := none },
      notes ++ [⟨"DOCINFO_REMOVED",
        ("removed the document information dictionary (PDF 2.0 print standards keep " ++
          "document metadata in XMP only)").toList,
        true⟩]⟩
  else ⟨d, doc, notes⟩

/-- `True` or `False`, behind a mark if there is one. -/
def trappedOf (mark : Option Char) (s : List Char) : Option Bool :=
  if s = mark.toList ++ "True".toList then some true
  else if s = mark.toList ++ "False".toList then some false
  else none

/-- The other levels for print: the dictionary states the version and `/Trapped`. -/
def collectX (c : Ctx) (doc : Doc) (info : Dict) (notes : List Note) : Collected :=
  let old := fromInfo info
  let d := synthesize c old
  let notes := notes ++ printNotes c old (cleanText (info.lookup "/GTS_PDFXVersion"))
    (cleanText (info.lookup "/GTS_PDFVTVersion"))
  let clean := withSynthesized c old (cleanInfo info)
  let clean := replaceKey clean "/GTS_PDFXVersion" (.string (xVersionString c))
  let clean := if c.isVT then replaceKey clean "/GTS_PDFVTVersion" (.string (vtVersionString c))
    else clean
  let trapped := trappedOf '/' (nameOf (info.lookup "/Trapped")) <|>
    trappedOf none (xmpElementText doc.metadata "pdf:Trapped".toList)
  let name := if trapped = some true then "/True".toList else "/False".toList
  ⟨{ d with trapped := some (trapped = some true) },
    { doc with info := some (replaceKey clean "/Trapped" (.name name)) },
    notes ++ noteIf trapped.isNone "TRAPPED_SET"
      "PDF/X requires /Trapped to state True or False; set False".toList true⟩

/-- Archives of the fourth part: the dictionary moves into XMP. -/
def collectA4 (c : Ctx) (doc : Doc) (info : Dict) (notes : List Note) : Collected :=
  let d := fromInfo info
  let infoBad := !c.verifyOnly || info.any fun e => e.1 ≠ "/ModDate"
  if doc.pieceInfo && d.modifyIso ≠ [] && canonModify info ≠ [] then
    ⟨d, { doc with info := some [("/ModDate", .string (canonModify info))] },
      notes ++ [⟨"DOCINFO_REDUCED",
        "kept only /ModDate in document info (required alongside /PieceInfo)".toList, infoBad⟩]⟩
  else
    ⟨d, { doc with info := none, pieceInfo := false },
      notes ++ noteIf doc.pieceInfo "PIECEINFO_REMOVED"
          "removed catalog /PieceInfo (no valid /ModDate to pair with it)".toList true ++
        noteIf (cleanInfo info ≠ [] || c.verifyOnly) "DOCINFO_MIGRATED"
          "migrated document info dictionary into XMP (deprecated in PDF 2.0)".toList true⟩

def kInfoKeys : List String :=
  ["/Title", "/Author", "/Subject", "/Keywords", "/Creator", "/Producer", "/CreationDate",
    "/ModDate"]

def collectInfo (c : Ctx) (doc : Doc) : Collected :=
  if doc.info.isNone && !(c.isX || c.dualX) then ⟨{ producer := kProducer }, doc, []⟩
  else
    let info := doc.info.getD []
    let notes := noteIf (badDate (cleanText (info.lookup "/CreationDate")) ||
        badDate (cleanText (info.lookup "/ModDate")))
      "DOCINFO_DATE_DROPPED" "dropped unparseable date from document info".toList true
    if c.isX || c.dualX then
      if c.x20 then collectX20 c doc info notes else collectX c doc info notes
    else if c.isA && 4 ≤ c.part then collectA4 c doc info notes
    else
      ⟨fromInfo info,
        { doc with info := if cleanInfo info = [] then none else some (cleanInfo info) },
        notes ++ noteIf (info.any fun e => e.1 ∉ kInfoKeys) "DOCINFO_CUSTOM_REMOVED"
          "removed nonstandard document info entries".toList !c.verifyOnly⟩

/-- A line with an element. -/
def element (tag value : List Char) : List Char :=
  "      <".toList ++ tag ++ ">".toList ++ value ++ "</".toList ++ tag ++ ">\n".toList

def appendSimple (tag : String) (value : List Char) : List Char :=
  if value = [] then [] else element tag.toList (xmlEscape value)

def appendAlt (tag : String) (value : List Char) (lang : List Char := "x-default".toList) :
    List Char :=
  if value = [] then []
  else element tag.toList ("<rdf:Alt><rdf:li xml:lang=\"".toList ++ xmlEscape lang ++
    "\">".toList ++ xmlEscape value ++ "</rdf:li></rdf:Alt>".toList)

def appendSeq (tag : String) (value : List Char) : List Char :=
  if value = [] then []
  else element tag.toList ("<rdf:Seq><rdf:li>".toList ++ xmlEscape value ++
    "</rdf:li></rdf:Seq>".toList)

def textIf (b : Bool) (s : List Char) : List Char := if b then s else []

/-- The opening lines with the namespaces. -/
def namespaces (c : Ctx) : List Char :=
  "<?xpacket begin=\"\u00EF\u00BB\u00BF\" id=\"W5M0MpCehiHzreSzNTczkc9d\"?>\n".toList ++
    "<x:xmpmeta xmlns:x=\"adobe:ns:meta/\">\n".toList ++
    "  <rdf:RDF xmlns:rdf=\"http://www.w3.org/1999/02/22-rdf-syntax-ns#\">\n".toList ++
    "    <rdf:Description rdf:about=\"\"\n".toList ++
    textIf c.isA "        xmlns:pdfaid=\"http://www.aiim.org/pdfa/ns/id/\"\n".toList ++
    textIf c.ua "        xmlns:pdfuaid=\"http://www.aiim.org/pdfua/ns/id/\"\n".toList ++
    textIf (c.isX || c.dualX) "        xmlns:pdfxid=\"http://www.npes.org/pdfx/ns/id/\"\n".toList ++
    textIf c.isVT "        xmlns:pdfvtid=\"http://www.npes.org/pdfvt/ns/id/\"\n".toList ++
    textIf c.isE "        xmlns:pdfe=\"http://www.aiim.org/pdfe/ns/id/\"\n".toList ++
    (match c.inv with
      | none => []
      | some inv =>
          "        xmlns:".toList ++ inv.px ++ "=\"".toList ++ inv.nsUri ++ "\"\n".toList) ++
    "        xmlns:dc=\"http://purl.org/dc/elements/1.1/\"\n".toList ++
    "        xmlns:xmp=\"http://ns.adobe.com/xap/1.0/\"\n".toList ++
    textIf (c.isX || c.dualX) "        xmlns:xmpMM=\"http://ns.adobe.com/xap/1.0/mm/\"\n".toList ++
    "        xmlns:pdf=\"http://ns.adobe.com/pdf/1.3/\">\n".toList

/-- The part and the conformance of an archive. -/
def identification (c : Ctx) : List Char :=
  element "pdfaid:part".toList (Nat.toDigits 10 c.part) ++
    if 4 ≤ c.part then
      element "pdfaid:rev".toList "2020".toList ++
        textIf (c.conf = some 'F' ∨ c.conf = some 'E')
          (element "pdfaid:conformance".toList c.conf.toList)
    else element "pdfaid:conformance".toList c.conf.toList

/-- The standards that the document meets. -/
def declarations (c : Ctx) (info : InfoData) : List Char :=
  textIf c.isA (identification c) ++
    textIf c.ua (if c.ua2 then
        element "pdfuaid:part".toList "2".toList ++ element "pdfuaid:rev".toList "2024".toList
      else element "pdfuaid:part".toList "1".toList) ++
    textIf (c.isX || c.dualX) (element "pdfxid:GTS_PDFXVersion".toList (xVersionString c) ++
      element "pdf:Trapped".toList
        (if info.trapped = some true then "True".toList else "False".toList)) ++
    textIf c.isVT (element "pdfvtid:GTS_PDFVTVersion".toList (vtVersionString c) ++
      element "pdfvtid:GTS_PDFVTModDate".toList (xmlEscape info.modifyIso) ++
      textIf c.pdf20Print (element "pdfvtid:GTS_PDFVTRev".toList "2020".toList ++
        element "pdfvtid:rev".toList "2020".toList)) ++
    textIf c.isE (element "pdfe:ISO_PDFEVersion".toList "PDF/E-1".toList) ++
    (match c.inv with
      | none => []
      | some inv =>
          element (inv.px ++ ":DocumentType".toList) (xmlEscape inv.documentType) ++
            element (inv.px ++ ":DocumentFileName".toList) (xmlEscape inv.filename) ++
            element (inv.px ++ ":Version".toList) (xmlEscape inv.version) ++
            element (inv.px ++ ":ConformanceLevel".toList) (xmlEscape inv.profile)) ++
    element "dc:format".toList "application/pdf".toList

/-- The title that is written; an accessible document always has one. -/
def shownTitle (c : Ctx) (info : InfoData) : List Char :=
  if c.ua && info.title = [] then kUntitled else info.title

def titleElement (c : Ctx) (info : InfoData) : List Char :=
  if c.ua then appendAlt "dc:title" (shownTitle c info) c.docLang
  else appendAlt "dc:title" (shownTitle c info)

/-- `%08x`. -/
def hex8x (n : UInt32) : List Char :=
  List.replicate (8 - (Nat.toDigits 16 n.toNat).length) '0' ++ Nat.toDigits 16 n.toNat

/-- The identifier of a document that is printed. -/
def documentId (c : Ctx) (info : InfoData) : List Char :=
  let hash := fnv1a32 ((info.createIso ++ info.modifyIso ++ (levelToString c.level).toList).map
    fun ch => UInt8.ofNat ch.toNat)
  "uuid:".toList ++ hex8x hash ++ "-0000-4000-8000-".toList ++ hex8x (hash ^^^ 0x9e3779b9) ++
    "0000".toList

/-- The other properties. -/
def properties (c : Ctx) (info : InfoData) : List Char :=
  appendSeq "dc:creator" info.author ++ appendAlt "dc:description" info.subject ++
    appendSimple "pdf:Keywords" info.keywords ++ appendSimple "xmp:CreatorTool" info.creator ++
    appendSimple "pdf:Producer" info.producer ++ appendSimple "xmp:CreateDate" info.createIso ++
    appendSimple "xmp:ModifyDate" info.modifyIso ++
    textIf (c.isX || c.dualX) (appendSimple "xmp:MetadataDate" info.modifyIso ++
      appendSimple "xmpMM:DocumentID" (documentId c info) ++
      appendSimple "xmpMM:InstanceID" (documentId c info) ++
      appendSimple "xmpMM:VersionID" "1".toList ++
      appendSimple "xmpMM:RenditionClass" "default".toList) ++
    "    </rdf:Description>\n".toList

/-- A property of an extension schema: its name, type, category and description. -/
def schemaProperty (name valueType category description : List Char) : List Char :=
  ("                <rdf:li rdf:parseType=\"Resource\">\n" ++
    "                  <pdfaProperty:name>").toList ++
    name ++ "</pdfaProperty:name>\n                  <pdfaProperty:valueType>".toList ++
    valueType ++ "</pdfaProperty:valueType>\n                  <pdfaProperty:category>".toList ++
    category ++ "</pdfaProperty:category>\n                  <pdfaProperty:description>".toList ++
    description ++ "</pdfaProperty:description>\n                </rdf:li>\n".toList

/-- An extension schema with its properties. -/
def schema (title uri name props : List Char) : List Char :=
  "          <rdf:li rdf:parseType=\"Resource\">\n            <pdfaSchema:schema>".toList ++
    title ++
    "</pdfaSchema:schema>\n            <pdfaSchema:namespaceURI>".toList ++ uri ++
    "</pdfaSchema:namespaceURI>\n            <pdfaSchema:prefix>".toList ++ name ++
    "</pdfaSchema:prefix>\n            <pdfaSchema:property>\n              <rdf:Seq>\n".toList ++
    props ++
    "              </rdf:Seq>\n            </pdfaSchema:property>\n          </rdf:li>\n".toList

def uaSchema : List Char :=
  schema "PDF/UA identification schema".toList "http://www.aiim.org/pdfua/ns/id/".toList
    "pdfuaid".toList (schemaProperty "part".toList "Integer".toList "internal".toList
      "Indicates, which part of ISO 14289 standard is followed".toList)

def xSchema : List Char :=
  schema "PDF/X ID Schema".toList "http://www.npes.org/pdfx/ns/id/".toList "pdfxid".toList
      (schemaProperty "GTS_PDFXVersion".toList "Text".toList "internal".toList
        "ID of PDF/X standard".toList) ++
    schema "Adobe PDF Schema".toList "http://ns.adobe.com/pdf/1.3/".toList "pdf".toList
      (schemaProperty "Trapped".toList "Text".toList "external".toList
        "Indication if the document has been modified to include trapping information".toList)

def fxSchema (inv : InvoiceProfile) : List Char :=
  let text (name : String) (description : List Char) : List Char :=
    schemaProperty name.toList "Text".toList "external".toList description
  schema inv.schemaName inv.nsUri inv.px
    (text "DocumentFileName" "name of the embedded XML document file".toList ++
      text "DocumentType" inv.documentType ++
      text "Version" ("The actual version of the ".toList ++ inv.standardName ++ " data".toList) ++
      text "ConformanceLevel"
        ("The conformance level of the embedded ".toList ++ inv.standardName ++ " data".toList))

/-- The schemas of what archives do not know by themselves. -/
def extensions (c : Ctx) : List Char :=
  let wantUaSchema : Bool := c.ua && c.part ≤ 3
  let wantFxSchema : Bool := c.inv.isSome && c.isA && c.part ≤ 3
  let wantXSchema : Bool := c.dualX && c.part ≤ 3
  if !(wantUaSchema || wantFxSchema || wantXSchema) then []
  else
    "    <rdf:Description rdf:about=\"\"\n".toList ++
      "        xmlns:pdfaExtension=\"http://www.aiim.org/pdfa/ns/extension/\"\n".toList ++
      "        xmlns:pdfaSchema=\"http://www.aiim.org/pdfa/ns/schema#\"\n".toList ++
      "        xmlns:pdfaProperty=\"http://www.aiim.org/pdfa/ns/property#\">\n".toList ++
      "      <pdfaExtension:schemas>\n        <rdf:Bag>\n".toList ++
      textIf wantUaSchema uaSchema ++ textIf wantXSchema xSchema ++
      textIf wantFxSchema ((c.inv.map fxSchema).getD []) ++
      "        </rdf:Bag>\n      </pdfaExtension:schemas>\n    </rdf:Description>\n".toList

/-- The closing lines with the padding. -/
def closing : List Char :=
  "  </rdf:RDF>\n</x:xmpmeta>\n".toList ++
    (List.replicate 20 (List.replicate 99 ' ' ++ ['\n'])).flatten ++
    "<?xpacket end=\"w\"?>".toList

/-- The packet. -/
def packet (c : Ctx) (info : InfoData) : List Char :=
  namespaces c ++ declarations c info ++ titleElement c info ++ properties c info ++
    extensions c ++ closing

/-- The pass over a document: the information is collected and the packet written. -/
def passMetadata (c : Ctx) (doc : Doc) : Collected :=
  let r := collectInfo c doc
  ⟨r.data, { r.doc with metadata := packet c r.data },
    r.notes ++ noteIf (c.ua && r.data.title = []) "TITLE_SYNTHESIZED"
        ("document has no title; set placeholder dc:title \"Untitled document\" " ++
          "(PDF/UA requires a title \u00E2\u0080\u0094 supply a real one for " ++
          "meaningful accessibility)").toList
        true ++
      [⟨"XMP_REBUILT", "regenerated XMP metadata with PDF/A identification".toList, true⟩]⟩

end Kura.Engine.Xmp
