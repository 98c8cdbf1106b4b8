import Kura.Engine.Xmp

/-!
# The title in repeated conversions

At the levels that keep their metadata in XMP only, the title of a document
without one in its information dictionary is cut out of the old packet.
-/

namespace Kura.Engine.Xmp

open Kura.Base (Clear clear_nil clear_of_notMem clear_of_clearB findFrom findFrom_of_clear
  occursAt)
open Kura.Engine.Jobs (Level levelRow)

/-- The characters that are written as entities. -/
def kSpecial : List Char := ['&', '<', '>', '"']

theorem escapeChar_special {c : Char} (h : c ∈ kSpecial) : 4 ≤ (escapeChar c).length := by
  simp only [kSpecial, List.mem_cons, List.not_mem_nil, or_false] at h
  obtain rfl | rfl | rfl | rfl := h <;> decide

theorem escapeChar_plain {c : Char} (h : c ∉ kSpecial) :
    escapeChar c = if dropped c then [] else [c] := by
  simp only [kSpecial, List.mem_cons, List.not_mem_nil, or_false, not_or] at h
  obtain ⟨hamp, hlt, hgt, hquot⟩ := h
  rw [escapeChar, if_neg hamp, if_neg hlt, if_neg hgt, if_neg hquot]

theorem dropped_special {c : Char} (h : c ∈ kSpecial) : dropped c = false := by
  simp only [kSpecial, List.mem_cons, List.not_mem_nil, or_false] at h
  obtain rfl | rfl | rfl | rfl := h <;> decide

/-- No angle bracket is left. -/
theorem notMem_escapeChar (c : Char) : '<' ∉ escapeChar c ∧ '>' ∉ escapeChar c := by
  by_cases h : c ∈ kSpecial
  · simp only [kSpecial, List.mem_cons, List.not_mem_nil, or_false] at h
    obtain rfl | rfl | rfl | rfl := h <;> decide
  · rw [escapeChar_plain h]
    simp only [kSpecial, List.mem_cons, List.not_mem_nil, or_false, not_or] at h
    split
    · simp
    · simp only [List.mem_singleton]
      exact ⟨fun hc => h.2.1 hc.symm, fun hc => h.2.2.1 hc.symm⟩

theorem notMem_xmlEscape (s : List Char) : '<' ∉ xmlEscape s ∧ '>' ∉ xmlEscape s := by
  constructor
  · intro h
    obtain ⟨c, -, hc⟩ := List.mem_flatMap.mp h
    exact (notMem_escapeChar c).1 hc
  · intro h
    obtain ⟨c, -, hc⟩ := List.mem_flatMap.mp h
    exact (notMem_escapeChar c).2 hc

theorem xmlEscape_cons (c : Char) (s : List Char) :
    xmlEscape (c :: s) = escapeChar c ++ xmlEscape s := List.flatMap_cons

theorem cleaned_cons (c : Char) (s : List Char) :
    cleaned (c :: s) = (if dropped c then [] else [c]) ++ cleaned s := by
  rw [cleaned, List.filter_cons]
  cases dropped c with
  | true => simp [cleaned]
  | false => simp [cleaned]

/-- Without special characters a text is only cleaned. -/
theorem xmlEscape_plain {s : List Char} (h : ∀ c ∈ s, c ∉ kSpecial) : xmlEscape s = cleaned s := by
  induction s with
  | nil => rfl
  | cons c s ih =>
      rw [xmlEscape_cons, cleaned_cons, escapeChar_plain (h c List.mem_cons_self),
        ih fun d hd => h d (List.mem_cons_of_mem c hd)]

theorem length_cleaned_le_xmlEscape (s : List Char) :
    (cleaned s).length ≤ (xmlEscape s).length := by
  induction s with
  | nil => exact Nat.le_refl 0
  | cons c s ih =>
      rw [xmlEscape_cons, cleaned_cons, List.length_append, List.length_append]
      have hc : (if dropped c then [] else [c]).length ≤ (escapeChar c).length := by
        by_cases h : c ∈ kSpecial
        · have := escapeChar_special h
          split
          · exact Nat.zero_le _
          · rw [List.length_singleton]
            omega
        · rw [escapeChar_plain h]
      omega

/-- A special character makes a text longer. -/
theorem xmlEscape_eq_cleaned_iff (s : List Char) :
    xmlEscape s = cleaned s ↔ ∀ c ∈ s, c ∉ kSpecial := by
  refine ⟨?_, xmlEscape_plain⟩
  intro heq c hc hspecial
  obtain ⟨a, b, rfl⟩ := List.append_of_mem hc
  have hsplit : xmlEscape (a ++ c :: b) = xmlEscape a ++ (escapeChar c ++ xmlEscape b) := by
    rw [xmlEscape, List.flatMap_append, List.flatMap_cons]
    rfl
  have hclean : cleaned (a ++ c :: b) = cleaned a ++ ([c] ++ cleaned b) := by
    have hcons := cleaned_cons c b
    rw [dropped_special hspecial, if_neg Bool.false_ne_true] at hcons
    rw [← hcons, cleaned, List.filter_append]
    rfl
  have hlen := congrArg List.length heq
  rw [hsplit, hclean] at hlen
  simp only [List.length_append, List.length_singleton] at hlen
  have ha := length_cleaned_le_xmlEscape a
  have hb := length_cleaned_le_xmlEscape b
  have hc := escapeChar_special hspecial
  omega

theorem cleaned_cleaned (s : List Char) : cleaned (cleaned s) = cleaned s := by
  rw [cleaned, cleaned, List.filter_filter]
  simp

/-- Cleaning a text before it is escaped changes nothing. -/
theorem xmlEscape_cleaned (s : List Char) : xmlEscape (cleaned s) = xmlEscape s := by
  induction s with
  | nil => rfl
  | cons c s ih =>
      rw [cleaned_cons, xmlEscape_cons]
      by_cases hd : dropped c = true
      · have hplain : c ∉ kSpecial := by
          intro h
          rw [dropped_special h] at hd
          cases hd
        rw [escapeChar_plain hplain, if_pos hd, List.nil_append, ih, List.nil_append]
      · rw [if_neg hd, List.singleton_append, xmlEscape_cons, ih]

/-- No title starts in a part. -/
def Untitled (s : List Char) : Prop := Clear "<dc:title".toList s

theorem titleTag_eq : "<dc:title".toList = '<' :: 'd' :: "c:title".toList := by decide

theorem untitled_of_notMem {s : List Char} (h : '<' ∉ s) : Untitled s := by
  rw [Untitled, titleTag_eq]
  exact clear_of_notMem _ h

theorem untitled_textIf (b : Bool) {s : List Char} (h : Untitled s) : Untitled (textIf b s) := by
  cases b with
  | true => exact h
  | false => exact clear_nil _

/-- A tag that is not one of Dublin Core: it starts with another letter. -/
def plainTag (tag : List Char) : Bool := tag.head?.any (· ≠ 'd') && !tag.contains '<'

theorem untitled_tag {first : Char} {s : List Char} (hfirst : first ≠ 'd') (hs : '<' ∉ first :: s) :
    Untitled ('<' :: first :: s) := by
  intro rest i hi
  cases i with
  | zero =>
      have hne : ('d' == first) = false := by simpa using Ne.symm hfirst
      rw [titleTag_eq, occursAt, List.drop_zero, List.cons_append, List.cons_append,
        List.isPrefixOf_cons_cons, List.isPrefixOf_cons_cons, hne, Bool.false_and, Bool.and_false]
  | succ i => exact untitled_of_notMem hs rest i (by simpa using hi)

theorem element_eq (tag value : List Char) :
    element tag value = "      ".toList ++ ('<' :: (tag ++ ['>'])) ++ value ++
      ('<' :: '/' :: (tag ++ ['>', '\n'])) := by
  -- the literals are variables here, as they must not be compared with each other
  have hshape : ∀ indent a b c d : List Char, a = indent ++ ['<'] → b = ['>'] → c = ['<', '/'] →
      d = ['>', '\n'] → a ++ tag ++ b ++ value ++ c ++ tag ++ d =
        indent ++ ('<' :: (tag ++ ['>'])) ++ value ++ ('<' :: '/' :: (tag ++ ['>', '\n'])) := by
    rintro indent a b c d rfl rfl rfl rfl
    simp only [List.append_assoc, List.cons_append, List.nil_append]
  exact hshape _ _ _ _ _ (by decide) (by decide) (by decide) (by decide)

/-- No title starts in an element with a plain tag. -/
theorem untitled_element {tag value : List Char} (htag : plainTag tag = true)
    (hvalue : '<' ∉ value) :
    Untitled (element tag value) := by
  cases tag with
  | nil => cases htag
  | cons first tag =>
      simp only [plainTag, List.head?_cons, Option.any_some, Bool.and_eq_true, decide_eq_true_eq,
        Bool.not_eq_true', List.contains_eq_mem, decide_eq_false_iff_not] at htag
      obtain ⟨hfirst, hnot⟩ := htag
      have hindent : Untitled "      ".toList := untitled_of_notMem (by decide)
      have hopen : Untitled ('<' :: (first :: tag ++ ['>'])) := by
        refine untitled_tag hfirst (s := tag ++ ['>']) ?_
        rw [← List.cons_append, List.mem_append, not_or]
        exact ⟨hnot, by decide⟩
      have hclose : Untitled ('<' :: '/' :: (first :: tag ++ ['>', '\n'])) := by
        apply untitled_tag (by decide)
        rw [List.mem_cons, List.mem_append, not_or, not_or]
        exact ⟨by decide, hnot, by decide⟩
      rw [element_eq]
      exact ((hindent.append hopen).append (untitled_of_notMem hvalue)).append hclose

/-- No title starts in the namespaces. -/
theorem untitled_namespaces (c : Ctx) : Untitled (namespaces c) := by
  have hinv : ∀ inv : InvoiceProfile, Untitled
      ("        xmlns:".toList ++ inv.px ++ "=\"".toList ++ inv.nsUri ++ "\"\n".toList) := by
    intro inv
    have hpx : '<' ∉ inv.px := by
      rw [InvoiceProfile.px]
      split <;> decide
    have huri : '<' ∉ inv.nsUri := by
      rw [InvoiceProfile.nsUri]
      split <;> decide
    apply untitled_of_notMem
    simp only [List.mem_append, not_or]
    exact ⟨⟨⟨⟨by decide, hpx⟩, by decide⟩, huri⟩, by decide⟩
  refine .append (.append (.append (.append (.append (.append (.append (.append (.append (.append
    (.append (.append (.append ?_ ?_) ?_) ?_) (untitled_textIf _ ?_)) (untitled_textIf _ ?_))
    (untitled_textIf _ ?_)) (untitled_textIf _ ?_)) (untitled_textIf _ ?_)) ?_) ?_) ?_)
    (untitled_textIf _ ?_)) ?_
  case refine_10 =>
    cases c.inv with
    | none => exact clear_nil _
    | some inv => exact hinv inv
  all_goals exact clear_of_clearB (by decide +kernel)

theorem notMem_toDigits (n : Nat) : '<' ∉ Nat.toDigits 10 n := by
  intro h
  have hdigit := Nat.isDigit_of_mem_toDigits (by decide) (by decide) h
  exact absurd hdigit (by decide)

theorem notMem_conf (c : Ctx) : '<' ∉ c.conf.toList := by
  have h : ∀ level : Level, '<' ∉ (levelRow level).conformance.toList := by
    intro level
    cases level <;> decide
  exact h c.level

theorem notMem_xVersionString (c : Ctx) : '<' ∉ xVersionString c := by
  rw [xVersionString]
  split
  case h_9 => cases c.x20 <;> decide
  all_goals decide

theorem notMem_vtVersionString (c : Ctx) : '<' ∉ vtVersionString c := by
  rw [vtVersionString]
  split
  · decide
  · split <;> decide

theorem plainTag_px {inv : InvoiceProfile} {s : List Char} (hs : '<' ∉ s) :
    plainTag (inv.px ++ s) = true := by
  have hpx : ∃ first more, inv.px = first :: more ∧ first ≠ 'd' ∧ '<' ∉ first :: more := by
    rw [InvoiceProfile.px]
    split
    · exact ⟨'z', ['f'], by decide, by decide, by decide⟩
    · exact ⟨'z', ['f'], by decide, by decide, by decide⟩
    · exact ⟨'f', ['x'], by decide, by decide, by decide⟩
  obtain ⟨first, more, heq, hfirst, hnot⟩ := hpx
  have hmem : '<' ∉ first :: (more ++ s) := by
    rw [← List.cons_append, List.mem_append, not_or]
    exact ⟨hnot, hs⟩
  rw [heq, List.cons_append, plainTag, List.contains_eq_mem, decide_eq_false hmem]
  simpa using hfirst

theorem untitled_identification (c : Ctx) : Untitled (identification c) := by
  have hconf : Untitled (element "pdfaid:conformance".toList c.conf.toList) :=
    untitled_element (by decide) (notMem_conf c)
  refine .append (untitled_element (by decide) (notMem_toDigits c.part)) ?_
  split
  · exact .append (untitled_element (by decide) (by decide))
      (untitled_textIf _ hconf)
  · exact hconf

theorem untitled_invoice (inv : InvoiceProfile) : Untitled
    (element (inv.px ++ ":DocumentType".toList) (xmlEscape inv.documentType) ++
      element (inv.px ++ ":DocumentFileName".toList) (xmlEscape inv.filename) ++
      element (inv.px ++ ":Version".toList) (xmlEscape inv.version) ++
      element (inv.px ++ ":ConformanceLevel".toList) (xmlEscape inv.profile)) := by
  refine .append (.append (.append ?_ ?_) ?_) ?_
  all_goals exact untitled_element (plainTag_px (by decide)) (notMem_xmlEscape _).1

/-- No title starts in the declarations. -/
theorem untitled_declarations (c : Ctx) (info : InfoData) : Untitled (declarations c info) := by
  refine .append (.append (.append (.append (.append (.append
    (untitled_textIf _ (untitled_identification c)) (untitled_textIf _ ?ua)) (untitled_textIf _ ?x))
    (untitled_textIf _ ?vt)) (untitled_textIf _ ?e)) ?inv) ?format
  case ua =>
    split
    · exact .append (untitled_element (by decide +kernel) (by decide +kernel))
        (untitled_element (by decide +kernel) (by decide +kernel))
    · exact untitled_element (by decide +kernel) (by decide +kernel)
  case x =>
    refine .append (untitled_element (by decide +kernel) (notMem_xVersionString c))
      (untitled_element (by decide +kernel) ?_)
    split <;> decide +kernel
  case vt =>
    exact .append (.append (untitled_element (by decide +kernel) (notMem_vtVersionString c))
      (untitled_element (by decide +kernel) (notMem_xmlEscape _).1))
      (untitled_textIf _ (.append (untitled_element (by decide +kernel) (by decide +kernel))
        (untitled_element (by decide +kernel) (by decide +kernel))))
  case e => exact untitled_element (by decide +kernel) (by decide +kernel)
  case inv =>
    cases c.inv with
    | none => exact clear_nil _
    | some inv => exact untitled_invoice inv
  case format => exact clear_of_clearB (by decide +kernel)

/-- The parts of an element around the text of its item: what stands before the element, before
the item, in the opening tag of the item, and behind the text up to the end of the element. -/
theorem itemText_of_parts {p q r : List Char} {pre alt attr text mid post : List Char}
    (hpre : Clear p pre) (halt : Clear r (p ++ alt)) (hattr : '>' ∉ r ++ attr) (htext : '<' ∉ text)
    (hq : Clear q (p ++ alt ++ (r ++ attr) ++ ['>'] ++ text ++ ('<' :: mid))) :
    itemText p q r
      (pre ++ (p ++ alt ++ (r ++ attr) ++ ['>'] ++ text ++ ('<' :: mid)) ++ (q ++ post)) =
      text := by
  set xmp := pre ++ (p ++ alt ++ (r ++ attr) ++ ['>'] ++ text ++ ('<' :: mid)) ++
    (q ++ post) with hxmp
  have htp : findFrom p xmp 0 = some pre.length := by
    have h := findFrom_of_clear []
        (alt ++ (r ++ attr) ++ ['>'] ++ text ++ ('<' :: mid) ++ (q ++ post)) hpre
    simpa [hxmp] using h
  have htend : findFrom q xmp pre.length = some (pre.length +
      (p ++ alt ++ (r ++ attr) ++ ['>'] ++ text ++ ('<' :: mid)).length) := by
    have h := findFrom_of_clear pre post hq
    simpa [hxmp] using h
  have hli : findFrom r xmp pre.length = some (pre.length + (p ++ alt).length) := by
    have h := findFrom_of_clear pre (attr ++ ['>'] ++ text ++ ('<' :: mid) ++ (q ++ post)) halt
    simpa [hxmp] using h
  have hopening : findFrom ['>'] xmp (pre.length + (p ++ alt).length) =
      some (pre.length + (p ++ alt).length + (r ++ attr).length) := by
    have h := findFrom_of_clear (pre ++ (p ++ alt)) (text ++ ('<' :: mid) ++ (q ++ post))
      (clear_of_notMem [] hattr)
    simpa [hxmp] using h
  have hclose : findFrom ['<'] xmp (pre.length + (p ++ alt).length + (r ++ attr).length + 1) =
      some (pre.length + (p ++ alt).length + (r ++ attr).length + 1 + text.length) := by
    have h := findFrom_of_clear (pre ++ (p ++ alt) ++ (r ++ attr) ++ ['>']) (mid ++ (q ++ post))
      (clear_of_notMem [] htext)
    simpa [hxmp, Nat.add_assoc] using h
  have hcut : (xmp.drop (pre.length + (p ++ alt).length + (r ++ attr).length + 1)).take
      text.length =
      text := by
    have hsplit : xmp = (pre ++ (p ++ alt) ++ (r ++ attr) ++ ['>']) ++
        (text ++ ('<' :: mid ++ (q ++ post))) := by
      simp [hxmp]
    have hlen : (pre ++ (p ++ alt) ++ (r ++ attr) ++ ['>']).length =
        pre.length + (p ++ alt).length + (r ++ attr).length + 1 := by
      simp only [List.length_append, List.length_singleton]
    rw [hsplit, ← hlen, List.drop_left, List.take_left]
  simp only [itemText, htp, htend, hli, hopening, hclose, Option.bind_eq_bind, Option.bind_some]
  have htotal : (p ++ alt ++ (r ++ attr) ++ ['>'] ++ text ++ ('<' :: mid)).length =
      (p ++ alt).length + (r ++ attr).length + 1 + text.length + (mid.length + 1) := by
    simp only [List.length_append, List.length_nil, List.length_cons, Nat.zero_add]
  rw [htotal, if_neg (by omega), if_neg (by omega)]
  by_cases hempty : text = []
  · rw [if_neg (by rw [hempty, List.length_nil]; omega), hempty]
    rfl
  · have hpos := List.length_pos_iff.mpr hempty
    rw [if_pos (by omega), Option.getD_some]
    have hdiff : pre.length + (p ++ alt).length + (r ++ attr).length + 1 + text.length -
        (pre.length + (p ++ alt).length + (r ++ attr).length) - 1 = text.length := by omega
    rw [hdiff, hcut]

/-- The title element, cut where the search for the title looks. -/
theorem titleElement_eq (lang value : List Char) (h : value ≠ []) :
    appendAlt "dc:title" value lang = "      ".toList ++ ("<dc:title".toList ++
      "><rdf:Alt>".toList ++
        ("<rdf:li".toList ++ (" xml:lang=\"".toList ++ xmlEscape lang ++ ['"'])) ++
      ['>'] ++ xmlEscape value ++ ('<' :: "/rdf:li></rdf:Alt>".toList)) ++
      ("</dc:title".toList ++ ['>', '\n']) := by
  have hshape : ∀ indent tag alt item attr tail p q pitem start stop l t : List Char,
      p = '<' :: tag → q = '<' :: '/' :: tag → alt = '>' :: pitem →
        start = pitem ++ (item ++ attr) →
      stop = '<' :: tail →
      indent ++ ('<' :: (tag ++ ['>'])) ++ (start ++ l ++ ['"', '>'] ++ t ++ stop) ++
        ('<' :: '/' :: (tag ++ ['>', '\n'])) =
      indent ++ (p ++ alt ++ (item ++ (attr ++ l ++ ['"'])) ++ ['>'] ++ t ++ ('<' :: tail)) ++
        (q ++ ['>', '\n']) := by
    rintro indent tag alt item attr tail p q pitem start stop l t rfl rfl rfl rfl rfl
    simp only [List.append_assoc, List.cons_append, List.nil_append]
  rw [appendAlt, if_neg h, element_eq]
  exact hshape _ _ _ _ _ _ _ _ "<rdf:Alt>".toList _ _ _ _ (by decide) (by decide) (by decide)
    (by decide) (by decide)

/-- The old title is found behind a text without one. -/
theorem oldTitle_of_untitled {pre value : List Char} (lang post : List Char) (hpre : Untitled pre)
    (h : value ≠ []) : oldTitle (pre ++ appendAlt "dc:title" value lang ++ post) =
      xmlEscape value := by
  have hindent : Untitled (pre ++ "      ".toList) := hpre.append (untitled_of_notMem (by decide))
  have halt : Clear "<rdf:li".toList ("<dc:title".toList ++ "><rdf:Alt>".toList) :=
    clear_of_clearB (by decide)
  have hattr : '>' ∉ "<rdf:li".toList ++ (" xml:lang=\"".toList ++ xmlEscape lang ++ ['"']) := by
    rw [List.mem_append, List.mem_append, List.mem_append, not_or, not_or, not_or]
    exact ⟨by decide, ⟨by decide, (notMem_xmlEscape lang).2⟩, by decide⟩
  have htag : "</dc:title".toList = '<' :: "/dc:title".toList := by decide
  have hquiet : ∀ s : List Char, '<' ∉ s → Clear "</dc:title".toList s := by
    intro s hs
    rw [htag]
    exact clear_of_notMem _ hs
  have hq : Clear "</dc:title".toList ("<dc:title".toList ++ "><rdf:Alt>".toList ++
      ("<rdf:li".toList ++ (" xml:lang=\"".toList ++ xmlEscape lang ++ ['"'])) ++ ['>'] ++
      xmlEscape value ++ ('<' :: "/rdf:li></rdf:Alt>".toList)) := by
    refine .append (.append (.append (.append (.append ?_ ?_) (.append ?_ (.append (.append ?_
      (hquiet _ (notMem_xmlEscape lang).1)) ?_))) ?_) (hquiet _ (notMem_xmlEscape value).1)) ?_
    all_goals exact clear_of_clearB (by decide)
  have hassoc : ∀ a b m q e d : List Char, a ++ (b ++ m ++ (q ++ e)) ++ d =
      a ++ b ++ m ++ (q ++ (e ++ d)) := by
    intro a b m q e d
    simp only [List.append_assoc]
  rw [titleElement_eq lang value h, hassoc]
  exact itemText_of_parts hindent halt hattr (notMem_xmlEscape value).1 hq

/-- The title that is found in a packet is the escaped one. -/
theorem oldTitle_packet {c : Ctx} {info : InfoData} (h : shownTitle c info ≠ []) :
    oldTitle (packet c info) = xmlEscape (shownTitle c info) := by
  have hpre := (untitled_namespaces c).append (untitled_declarations c info)
  rw [packet, List.append_assoc, List.append_assoc, titleElement]
  split
  · exact oldTitle_of_untitled _ _ hpre h
  · exact oldTitle_of_untitled _ _ hpre h

/-- A document has a title in its information dictionary. -/
def infoTitle (doc : Doc) : List Char := cleanText ((doc.info.getD []).lookup "/Title")

theorem print_of_x20 {c : Ctx} (h : c.x20 = true) : (c.isX || c.dualX) = true := by
  have hfamily : ∀ level : Level, level = .X6 ∨ level = .VT3 ∨ level = .X6N ∨ level = .X6P →
      Jobs.levelFamily level = .PDFX ∨ Jobs.levelFamily level = .PDFVT := by
    rintro level (rfl | rfl | rfl | rfl) <;> decide
  rw [Ctx.x20, Bool.or_eq_true, Bool.and_eq_true] at h
  rw [Bool.or_eq_true]
  obtain h | ⟨h, -⟩ := h
  · left
    rw [Ctx.pdf20Print, decide_eq_true_eq] at h
    rw [Ctx.isX, decide_eq_true_eq]
    exact hfamily c.level h
  · exact .inr h

theorem collectInfo_x20 {c : Ctx} (h : c.x20 = true) (doc : Doc) :
    ∃ notes, collectInfo c doc = collectX20 c doc (doc.info.getD []) notes := by
  have hprint := print_of_x20 h
  rw [collectInfo, hprint, Bool.not_true, Bool.and_false, if_neg Bool.false_ne_true]
  simp only [if_true, if_pos h]
  exact ⟨_, rfl⟩

/-- One conversion: the title is the one of the old packet, or the placeholder. -/
theorem passMetadata_x20 {c : Ctx} (h : c.x20 = true) {doc : Doc} (htitle : infoTitle doc = []) :
    (passMetadata c doc).data.title =
        (if oldTitle doc.metadata = [] then kUntitled else oldTitle doc.metadata) ∧
      infoTitle (passMetadata c doc).doc = [] ∧
      (passMetadata c doc).doc.metadata = packet c (passMetadata c doc).data := by
  obtain ⟨notes, hcollect⟩ := collectInfo_x20 h doc
  have hfrom : (fromInfo (doc.info.getD [])).title = [] := htitle
  refine ⟨?_, ?_, by rw [passMetadata]⟩
  · rw [passMetadata, hcollect, collectX20]
    have hdata : (synthesize c (fromXmp (fromInfo (doc.info.getD [])) doc.metadata)).title =
        if oldTitle doc.metadata = [] then kUntitled else oldTitle doc.metadata := by
      rw [synthesize, fromXmp, hfrom]
      rfl
    dsimp only
    split
    · exact hdata
    · split
      · exact hdata
      · exact hdata
  · rw [passMetadata, hcollect, collectX20]
    dsimp only
    rw [infoTitle] at htitle ⊢
    split
    · rfl
    · split
      · rfl
      · exact htitle

/-- Conversions of one document after the other, each with its context. -/
def conversions : Doc → List Ctx → List (Ctx × InfoData)
  | _, [] => []
  | doc, c :: cs => (c, (passMetadata c doc).data) :: conversions (passMetadata c doc).doc cs

/-- The text of the title as it is written. -/
def titleText (c : Ctx) (info : InfoData) : List Char := xmlEscape (shownTitle c info)

/-- Every conversion has the title `t` and writes its text as it was. -/
def KeepsTitle (t text : List Char) (doc : Doc) (cs : List Ctx) : Prop :=
  ∀ r ∈ conversions doc cs, r.2.title = t ∧ titleText r.1 r.2 = text

/-- A text that is the same when it is escaped, and not empty. -/
def Stable (t : List Char) : Prop := cleaned t ≠ [] ∧ ∀ c ∈ t, c ∉ kSpecial

theorem stable_cleaned {t : List Char} (h : Stable t) : Stable (cleaned t) := by
  refine ⟨?_, ?_⟩
  · rw [cleaned_cleaned]
    exact h.1
  · intro c hc
    exact h.2 c (List.mem_of_mem_filter hc)

theorem shownTitle_of_ne {c : Ctx} {info : InfoData} (h : info.title ≠ []) :
    shownTitle c info = info.title := by
  rw [shownTitle, if_neg (by simp [h])]

theorem ne_nil_of_cleaned {t : List Char} (h : cleaned t ≠ []) : t ≠ [] := by
  rintro rfl
  exact h rfl

/-- Step: a stable title is found again as it was, without its control characters. -/
theorem passMetadata_stable {c₀ c : Ctx} {info : InfoData} {doc : Doc} (hc : c.x20 = true)
    (htitle : infoTitle doc = []) (hpacket : doc.metadata = packet c₀ info)
    (h : Stable info.title) :
    (passMetadata c doc).data.title = cleaned info.title ∧
      titleText c (passMetadata c doc).data = titleText c₀ info := by
  have hshown : shownTitle c₀ info = info.title := shownTitle_of_ne (ne_nil_of_cleaned h.1)
  have hold : oldTitle doc.metadata = cleaned info.title := by
    rw [hpacket, oldTitle_packet (by rw [hshown]; exact ne_nil_of_cleaned h.1), hshown,
      xmlEscape_plain h.2]
  have hdata : (passMetadata c doc).data.title = cleaned info.title := by
    rw [(passMetadata_x20 hc htitle).1, hold, if_neg h.1]
  refine ⟨hdata, ?_⟩
  rw [titleText, titleText, hshown, shownTitle_of_ne (by rw [hdata]; exact h.1), hdata,
    xmlEscape_cleaned]

/-- Run: a stable title stays as it is in every conversion. -/
theorem keepsTitle_of_stable {c₀ : Ctx} {info : InfoData} {doc : Doc} {cs : List Ctx}
    (hcs : ∀ c ∈ cs, c.x20 = true) (htitle : infoTitle doc = [])
    (hpacket : doc.metadata = packet c₀ info) (h : Stable info.title) :
    KeepsTitle (cleaned info.title) (titleText c₀ info) doc cs := by
  induction cs generalizing c₀ info doc with
  | nil =>
      intro r hr
      cases hr
  | cons c cs ih =>
      have hc := hcs c List.mem_cons_self
      obtain ⟨hdata, htext⟩ := passMetadata_stable hc htitle hpacket h
      obtain ⟨-, hnone, hnew⟩ := passMetadata_x20 hc htitle
      rw [KeepsTitle, conversions, List.forall_mem_cons]
      dsimp only
      refine ⟨⟨hdata, htext⟩, ?_⟩
      · intro r hr
        have hstable : Stable (passMetadata c doc).data.title := by
          rw [hdata]
          exact stable_cleaned h
        have hrest := ih (fun d hd => hcs d (List.mem_cons_of_mem c hd)) hnone hnew hstable r hr
        rwa [hdata, cleaned_cleaned, htext] at hrest

/-- A title that one conversion keeps is stable. -/
theorem stable_of_title {c₀ c : Ctx} {info : InfoData} {doc : Doc} (hc : c.x20 = true)
    (htitle : infoTitle doc = []) (hpacket : doc.metadata = packet c₀ info)
    (hkept : (passMetadata c doc).data.title = cleaned info.title) : Stable info.title := by
  rw [(passMetadata_x20 hc htitle).1, hpacket] at hkept
  have hclean : cleaned info.title ≠ [] := by
    rw [← hkept]
    split
    · decide
    · assumption
  have hne := ne_nil_of_cleaned hclean
  have hshown : shownTitle c₀ info = info.title := shownTitle_of_ne hne
  rw [oldTitle_packet (by rw [hshown]; exact hne), hshown] at hkept
  refine ⟨hclean, (xmlEscape_eq_cleaned_iff info.title).mp ?_⟩
  by_cases hempty : xmlEscape info.title = []
  · -- escaping never removes more than cleaning does
    have hlen := length_cleaned_le_xmlEscape info.title
    rw [hempty, List.length_nil, Nat.le_zero, List.length_eq_zero_iff] at hlen
    exact absurd hlen hclean
  · rwa [if_neg hempty] at hkept

/-- A document without a title in its information dictionary and with a packet that was written
here keeps the title of the packet in repeated conversions if and only if some of it is left
without control characters and none of it is written as an entity. -/
theorem keepsTitle_iff (c₀ c : Ctx) (cs : List Ctx) (info : InfoData) (doc : Doc)
    (hcs : ∀ d ∈ c :: cs, d.x20 = true) (htitle : infoTitle doc = [])
    (hpacket : doc.metadata = packet c₀ info) :
    KeepsTitle (cleaned info.title) (titleText c₀ info) doc (c :: cs) ↔
      cleaned info.title ≠ [] ∧ ∀ ch ∈ info.title, ch ∉ ['&', '<', '>', '"'] := by
  constructor
  · intro h
    exact stable_of_title (hcs c List.mem_cons_self) htitle hpacket (h _ List.mem_cons_self).1
  · intro h
    exact keepsTitle_of_stable hcs htitle hpacket h

/-- A title without special characters, converted twice. -/
theorem plainTitle_kept :
    KeepsTitle "Report 7".toList "Report 7".toList
      { metadata := packet { level := .A2B, now := [] } { title := "Report 7".toList } }
      [{ level := .X6, now := [] }, { level := .VT3, now := [] }] := by
  have hplain : "Report 7".toList.all (fun ch => ch ∉ ['&', '<', '>', '"']) = true := by decide
  have h := (keepsTitle_iff { level := .A2B, now := [] } { level := .X6, now := [] }
    [{ level := .VT3, now := [] }] { title := "Report 7".toList }
    { metadata := packet { level := .A2B, now := [] } { title := "Report 7".toList } }
    (by decide) rfl rfl).mpr
      ⟨by decide, fun ch hch => of_decide_eq_true (List.all_eq_true.mp hplain ch hch)⟩
  have hclean : cleaned "Report 7".toList = "Report 7".toList := by decide
  have htext : titleText { level := .A2B, now := [] } { title := "Report 7".toList } =
      "Report 7".toList := by decide
  rwa [hclean, htext] at h

/-- The title of a document with an ampersand in it: the second conversion does not find it as it
was. -/
theorem ampersand_title_changes :
    let c : Ctx := { level := .X6, now := "D:20240102030405Z".toList }
    let r := passMetadata c { info := some [("/Title", .string "A & B".toList)] }
    r.data.title = "A & B".toList ∧ infoTitle r.doc = [] ∧ c.x20 = true ∧
      (passMetadata c r.doc).data.title = "A &amp; B".toList ∧
      titleText c (passMetadata c r.doc).data ≠ titleText c r.data ∧
      ¬ KeepsTitle (cleaned r.data.title) (titleText c r.data) r.doc [c] := by
  intro c r
  have hx20 : c.x20 = true := by decide
  have hfirst : r.data.title = "A & B".toList := by decide
  have hnone : infoTitle r.doc = [] := by decide
  have hshown : shownTitle c r.data = "A & B".toList := by
    rw [shownTitle_of_ne (by rw [hfirst]; decide), hfirst]
  have hold : oldTitle r.doc.metadata = "A &amp; B".toList := by
    have h : oldTitle (packet c r.data) = xmlEscape (shownTitle c r.data) :=
      oldTitle_packet (by rw [hshown]; decide)
    rw [hshown] at h
    exact h.trans (by decide)
  have hsecond : (passMetadata c r.doc).data.title = "A &amp; B".toList := by
    rw [(passMetadata_x20 hx20 hnone).1, hold]
    decide
  refine ⟨hfirst, hnone, hx20, hsecond, ?_, ?_⟩
  · rw [titleText, titleText, hshown, shownTitle_of_ne (by rw [hsecond]; decide), hsecond]
    decide
  · intro h
    have hkept := (h _ List.mem_cons_self).1
    rw [hsecond, hfirst] at hkept
    exact absurd hkept (by decide)

end Kura.Engine.Xmp
