import ManagedCode.Proofs.Encoding
import ManagedCode.Proofs.Meets
import ManagedCode.Proofs.Numerals

/-!
# String literals

Three scans pass over a line with a string literal: for the comment, for the label in front and for the literal. Each
has to know where the literal ends, or that it is not concerned. A text that the first scan passes as a whole, and
leaves outside of a string, is `Passed`; a literal is (`passed_writeLiteral`), whatever its string has in it. What
stands around an instruction (`Margins`) is then taken off one part after the other. The scan for the comment runs over
characters here. Over the bytes of the line it cuts at the same place (`stripBytes_utf8`).
-/

namespace ManagedCode

namespace Text

/-! ## Blanks and cuts -/

/-- No blank at either end. -/
def Bare (cs : List Char) : Prop := (∀ c ∈ cs.head?, isBlank c = false) ∧ ∀ c ∈ cs.getLast?, isBlank c = false

theorem bare_of_ends {a b : Char} (ha : isBlank a = false) (hb : isBlank b = false) (cs : List Char) :
    Bare (a :: (cs ++ [b])) := by
  refine ⟨?_, fun c hc => ?_⟩
  · rintro c ⟨⟩
    exact ha
  · rw [← List.cons_append, List.getLast?_concat] at hc
    cases hc
    exact hb

theorem bare_of_forall {cs : List Char} (h : ∀ c ∈ cs, isBlank c = false) : Bare cs :=
  ⟨fun c hc => h c (List.mem_of_mem_head? hc), fun c hc => h c (List.mem_of_getLast? hc)⟩

theorem trimStart_bare {cs : List Char} (h : ∀ c ∈ cs.head?, isBlank c = false) : trimStart cs = cs := by
  cases cs with
  | nil => rfl
  | cons c cs => exact List.dropWhile_cons_of_neg (by simp [h c rfl])

theorem trimEnd_bare {cs : List Char} (h : ∀ c ∈ cs.getLast?, isBlank c = false) : trimEnd cs = cs := by
  have hreverse : trimStart cs.reverse = cs.reverse := trimStart_bare (by rwa [List.head?_reverse])
  rw [trimStart] at hreverse
  rw [trimEnd, hreverse, List.reverse_reverse]

/-- **Trimming takes the blanks around a text and nothing else.** -/
theorem trim_around {before cs behind : List Char} (hbefore : ∀ c ∈ before, isBlank c = true) (hcs : Bare cs)
    (hbehind : ∀ c ∈ behind, isBlank c = true) : trim (before ++ cs ++ behind) = cs := by
  have hstart : trimStart (before ++ cs ++ behind) = trimStart (cs ++ behind) := by
    rw [trimStart, List.append_assoc, List.dropWhile_append_of_pos hbefore, trimStart]
  have hfront : trimStart (cs ++ behind) = cs ++ trimStart behind ∨ trimStart (cs ++ behind) = cs ++ behind := by
    cases cs with
    | nil => exact .inl rfl
    | cons c cs => exact .inr (trimStart_bare hcs.1)
  have hend : ∀ blanks : List Char, (∀ c ∈ blanks, isBlank c = true) → trimEnd (cs ++ blanks) = cs := by
    intro blanks hblanks
    rw [trimEnd, List.reverse_append, List.dropWhile_append_of_pos (by simpa using hblanks)]
    exact trimEnd_bare hcs.2
  rw [trim, hstart]
  rcases hfront with h | h
  · rw [h]
    exact hend _ fun c hc => hbehind c ((List.dropWhile_sublist _).subset hc)
  · rw [h]
    exact hend _ hbehind

theorem mem_trimStart {c : Char} (hc : isBlank c = false) : ∀ {cs : List Char}, c ∈ cs → c ∈ trimStart cs
  | a :: cs, h => by
    by_cases ha : isBlank a = true
    · rw [trimStart, List.dropWhile_cons_of_pos ha]
      rcases List.mem_cons.1 h with rfl | h
      · cases hc.symm.trans ha
      · exact mem_trimStart hc h
    · rwa [trimStart, List.dropWhile_cons_of_neg ha]

theorem mem_trim {c : Char} (hc : isBlank c = false) {cs : List Char} (h : c ∈ cs) : c ∈ trim cs := by
  have hend := mem_trimStart hc (List.mem_reverse.2 (mem_trimStart hc h))
  exact List.mem_reverse.2 hend

/-- A cut lies behind a text without the separator. -/
theorem cutAt_append {sep : Char} {pre : List Char} (h : sep ∉ pre) (post : List Char) :
    cutAt sep (pre ++ post) = (cutAt sep post).map (Prod.map (pre ++ ·) id) := by
  induction pre with
  | nil => cases hpost : cutAt sep post <;> simp [hpost, Prod.map]
  | cons c pre ih =>
    have hc : c ≠ sep := Ne.symm (List.ne_of_not_mem_cons h)
    rw [List.cons_append, cutAt, ih (List.not_mem_of_not_mem_cons h), if_neg (by simpa using hc)]
    cases cutAt sep post <;> rfl

theorem lines_of_not_mem {cs : List Char} (hne : cs ≠ []) (h : '\n' ∉ cs) : lines cs = [cs] := by
  have hsplit : ∀ cs : List Char, '\n' ∉ cs → splitOn (· == '\n') cs = [cs] := by
    intro cs hcs
    induction cs with
    | nil => rfl
    | cons c cs ih =>
      have hc : c ≠ '\n' := Ne.symm (List.ne_of_not_mem_cons hcs)
      simp [splitOn, ih (List.not_mem_of_not_mem_cons hcs), hc]
  cases cs with
  | nil => exact absurd rfl hne
  | cons c cs => simp [lines, hsplit _ h]

/-! ## Quoting -/

/-- A character stands in a literal as it is, or its escape stands there behind a backslash. -/
theorem escapeChar_cases (c : Char) : (escapeChar c = [c] ∧ c ≠ '"' ∧ c ≠ '\\' ∧ c ≠ '\n') ∨
    ∃ e, escapeChar c = ['\\', e] ∧ unescape? e = some c ∧ e ≠ '\n' := by
  by_cases hn : c = '\n'
  · subst hn; exact .inr ⟨'n', rfl, rfl, by decide⟩
  by_cases ht : c = '\t'
  · subst ht; exact .inr ⟨'t', rfl, rfl, by decide⟩
  by_cases hr : c = '\r'
  · subst hr; exact .inr ⟨'r', rfl, rfl, by decide⟩
  by_cases h0 : c = '\x00'
  · subst h0; exact .inr ⟨'0', rfl, rfl, by decide⟩
  by_cases hquote : c = '"'
  · subst hquote; exact .inr ⟨'"', rfl, rfl, by decide⟩
  by_cases hback : c = '\\'
  · subst hback; exact .inr ⟨'\\', rfl, rfl, by decide⟩
  exact .inl ⟨by simp [escapeChar, hn, ht, hr, h0, hquote, hback], hquote, hback, hn⟩

theorem decodeLiteral_plain {c : Char} (hc : c ≠ '\\') (cs : List Char) :
    decodeLiteral (c :: cs) = (decodeLiteral cs).map (c :: ·) := by
  rw [decodeLiteral]
  · intro h
    exact absurd h hc
  · intro a rest h
    exact absurd h hc

theorem decodeLiteral_escapes (s : List Char) : decodeLiteral (s.flatMap escapeChar) = some s := by
  induction s with
  | nil => rfl
  | cons c s ih =>
    rw [List.flatMap_cons]
    rcases escapeChar_cases c with ⟨hc, -, hback, -⟩ | ⟨e, hc, he, -⟩
    · rw [hc, List.singleton_append, decodeLiteral_plain hback, ih]
      rfl
    · rw [hc, List.cons_append, List.singleton_append, decodeLiteral, he, ih]

/-- **A written literal is read as the string.** -/
theorem readLiteral_writeLiteral (s : List Char) : readLiteral (writeLiteral s) = some s := by
  simp [readLiteral, writeLiteral, decodeLiteral_escapes]

theorem not_mem_writeLiteral (s : List Char) : '\n' ∉ writeLiteral s := by
  intro h
  simp only [writeLiteral, List.mem_cons, List.cons_append, List.mem_append, List.mem_flatMap] at h
  rcases h with h | ⟨c, -, h⟩ | h
  · cases h
  · rcases escapeChar_cases c with ⟨hc, -, -, hn⟩ | ⟨e, hc, -, hn⟩
    · rw [hc] at h
      exact hn (List.mem_singleton.1 h).symm
    · rw [hc] at h
      rcases List.mem_cons.1 h with h | h
      · cases h
      · exact hn (List.mem_singleton.1 h).symm
  · simp at h

theorem bare_writeLiteral (s : List Char) : Bare (writeLiteral s) := bare_of_ends (by decide) (by decide) _

end Text

namespace Listing

open Text

/-! ## Comments -/

/-- The scan for a comment goes through the text, and is outside of a string behind it. -/
def Passed (cs : List Char) : Prop :=
  ∀ post, stripComment false false (cs ++ post) = cs ++ stripComment false false post

theorem Passed.append {cs ds : List Char} (h : Passed cs) (h' : Passed ds) : Passed (cs ++ ds) := by
  intro post
  rw [List.append_assoc, h, h', List.append_assoc]

theorem passed_plain {cs : List Char} (h : ∀ c ∈ cs, c ≠ '"' ∧ c ≠ '/') : Passed cs := by
  intro post
  induction cs with
  | nil => rfl
  | cons c cs ih =>
    obtain ⟨hquote, hslash⟩ := h c List.mem_cons_self
    rw [List.cons_append, stripComment, ih fun c hc => h c (List.mem_cons_of_mem _ hc)]
    simp [hquote, hslash]

/-- Inside of a string the scan goes through escapes and all other characters, slashes among them. -/
theorem stripComment_escapes (s post : List Char) : stripComment true false (s.flatMap escapeChar ++ post) =
    s.flatMap escapeChar ++ stripComment true false post := by
  induction s with
  | nil => rfl
  | cons c s ih =>
    rw [List.flatMap_cons, List.append_assoc, List.append_assoc, ← ih]
    rcases escapeChar_cases c with ⟨hc, hquote, hback, -⟩ | ⟨e, hc, -, -⟩
    · rw [hc, List.singleton_append, stripComment]
      simp [hquote, hback]
    · simp [hc, stripComment]

/-- **A literal is passed**, whatever the string has in it. -/
theorem passed_writeLiteral (s : List Char) : Passed (writeLiteral s) := by
  intro post
  have hclose : stripComment true false ('"' :: post) = '"' :: stripComment false false post := by simp [stripComment]
  have hopen : ∀ cs, stripComment false false ('"' :: cs) = '"' :: stripComment true false cs := by simp [stripComment]
  rw [writeLiteral, List.cons_append, List.cons_append, List.append_assoc, hopen, stripComment_escapes,
    List.singleton_append, hclose]
  simp

/-- The scan for a comment as it runs over the bytes of a line. -/
def stripBytes (inString escaped : Bool) : List UInt8 → List UInt8
  | [] => []
  | b :: bs =>
    if escaped then b :: stripBytes inString false bs
    else if b == 0x5C && inString then b :: stripBytes inString true bs
    else if b == 0x22 then b :: stripBytes (!inString) false bs
    else if b == 0x2F && !inString && bs.head? == some 0x2F then []
    else b :: stripBytes inString false bs

/-- A character is one byte of ASCII, or has bytes above ASCII alone. -/
theorem utf8EncodeChar_cases (c : Char) :
    (c.toNat < 128 ∧ String.utf8EncodeChar c = [UInt8.ofNat c.toNat]) ∨
    (128 ≤ c.toNat ∧ String.utf8EncodeChar c ≠ [] ∧ ∀ b ∈ String.utf8EncodeChar c, 128 ≤ b.toNat) := by
  by_cases hc : c.val.toNat ≤ 127
  · exact .inl ⟨Nat.lt_succ_of_le hc, by rw [String.utf8EncodeChar, if_pos hc]; rfl⟩
  · refine .inr ⟨Nat.lt_of_not_le hc, ?_⟩
    rw [String.utf8EncodeChar, if_neg hc]
    by_cases htwo : c.val.toNat ≤ 2047
    · rw [if_pos htwo]
      simp
      omega
    · rw [if_neg htwo]
      by_cases hthree : c.val.toNat ≤ 65535
      · rw [if_pos hthree]
        simp
        omega
      · rw [if_neg hthree]
        simp
        omega

/-- Bytes above ASCII are passed, and end an escape. -/
theorem stripBytes_high (inString escaped : Bool) {bytes : List UInt8} (hne : bytes ≠ [])
    (hhigh : ∀ b ∈ bytes, 128 ≤ b.toNat) (post : List UInt8) :
    stripBytes inString escaped (bytes ++ post) = bytes ++ stripBytes inString false post := by
  induction bytes generalizing escaped with
  | nil => exact absurd rfl hne
  | cons b bytes ih =>
    have hb := hhigh b List.mem_cons_self
    have hrest : stripBytes inString false (bytes ++ post) = bytes ++ stripBytes inString false post := by
      by_cases hbytes : bytes = []
      · rw [hbytes]
        rfl
      · exact ih false hbytes fun b hb => hhigh b (List.mem_cons_of_mem _ hb)
    have hback : b ≠ 0x5C := by rintro rfl; exact absurd hb (by decide)
    have hquote : b ≠ 0x22 := by rintro rfl; exact absurd hb (by decide)
    have hslash : b ≠ 0x2F := by rintro rfl; exact absurd hb (by decide)
    rw [List.cons_append, stripBytes, hrest]
    simp [hback, hquote, hslash]

theorem ofNat_beq_ofNat {c : Char} (d : Char) (hc : c.toNat < 128) (hd : d.toNat < 128) :
    (UInt8.ofNat c.toNat == UInt8.ofNat d.toNat) = (c == d) := by
  rw [Bool.eq_iff_iff, beq_iff_eq, beq_iff_eq]
  constructor
  · intro h
    have hnat := congrArg UInt8.toNat h
    rw [UInt8.toNat_ofNat_of_lt' (Nat.lt_trans hc (by decide)), UInt8.toNat_ofNat_of_lt' (Nat.lt_trans hd (by decide))]
      at hnat
    exact Char.toNat_inj.1 hnat
  · rintro rfl
    rfl

theorem head?_utf8 (cs : List Char) :
    ((cs.flatMap String.utf8EncodeChar).head? == some 0x2F) = (cs.head? == some '/') := by
  cases cs with
  | nil => rfl
  | cons c cs =>
    rw [List.flatMap_cons]
    rcases utf8EncodeChar_cases c with ⟨hc, hbytes⟩ | ⟨hc, hne, hhigh⟩
    · have hslash : (UInt8.ofNat c.toNat == 0x2F) = (c == '/') := ofNat_beq_ofNat '/' hc (by decide)
      simpa [hbytes] using hslash
    · have hslash : c ≠ '/' := by rintro rfl; exact absurd hc (by decide)
      obtain ⟨b, bytes, hbytes⟩ := List.exists_cons_of_ne_nil hne
      have hb : b ≠ 0x2F := by
        rintro rfl
        exact absurd (hhigh 0x2F (by simp [hbytes])) (by decide)
      simp [hbytes, beq_eq_false_iff_ne.2 hb, beq_eq_false_iff_ne.2 hslash]

/-- **The scan over the bytes of a text cuts where the scan over its characters does.** -/
theorem stripBytes_utf8 (inString escaped : Bool) (cs : List Char) :
    stripBytes inString escaped (cs.flatMap String.utf8EncodeChar) =
      (stripComment inString escaped cs).flatMap String.utf8EncodeChar := by
  induction cs generalizing inString escaped with
  | nil => rfl
  | cons c cs ih =>
    rw [List.flatMap_cons]
    rcases utf8EncodeChar_cases c with ⟨hc, hbytes⟩ | ⟨hc, hne, hhigh⟩
    · have hback : (UInt8.ofNat c.toNat == 0x5C) = (c == '\\') := ofNat_beq_ofNat '\\' hc (by decide)
      have hquote : (UInt8.ofNat c.toNat == 0x22) = (c == '"') := ofNat_beq_ofNat '"' hc (by decide)
      have hslash : (UInt8.ofNat c.toNat == 0x2F) = (c == '/') := ofNat_beq_ofNat '/' hc (by decide)
      rw [hbytes, List.singleton_append, stripBytes, stripComment, hback, hquote, hslash, head?_utf8]
      simp only [ih]
      (repeat' split) <;> simp [hbytes]
    · have hback : c ≠ '\\' := by rintro rfl; exact absurd hc (by decide)
      have hquote : c ≠ '"' := by rintro rfl; exact absurd hc (by decide)
      have hslash : c ≠ '/' := by rintro rfl; exact absurd hc (by decide)
      rw [stripBytes_high _ _ hne hhigh, stripComment, ih]
      simp [hback, hquote, hslash]

/-! ## The parts of a line -/

/-- Blanks inside of a line. -/
structure Gap where
  chars : List Char
  blank : ∀ c ∈ chars, isBlank c = true
  inLine : '\n' ∉ chars

structure LabelPrefix where
  name : List Char
  identifier : isIdentifier name = true
  before : Gap
  behind : Gap

def LabelPrefix.text (l : LabelPrefix) : List Char := l.name ++ l.before.chars ++ ':' :: l.behind.chars

/-- **What stands around an instruction on its line.** -/
structure Margins where
  lead : Gap
  label : Option LabelPrefix
  trail : Gap
  /-- The text behind the two slashes. -/
  comment : Option { text : List Char // '\n' ∉ text }

def Margins.labelText (m : Margins) : List Char := (m.label.map LabelPrefix.text).getD []

def Margins.commentText (m : Margins) : List Char := (m.comment.map fun c => '/' :: '/' :: c.val).getD []

def Margins.line (m : Margins) (text : List Char) : List Char :=
  m.lead.chars ++ (m.labelText ++ text) ++ m.trail.chars ++ m.commentText

/-- The builder when the label of the first line has been marked. -/
def Margins.builder (m : Margins) : Builder :=
  match m.label with
  | none => {}
  | some l => { labels := #[some 0], names := #[String.ofList l.name] }

def stringLoad (s : List Char) : List Char := ['l', 'd', 's', 't', 'r'] ++ ' ' :: writeLiteral s

theorem Gap.passed (g : Gap) : Passed g.chars := by
  refine passed_plain fun c hc => ⟨?_, ?_⟩
  · rintro rfl
    exact absurd (g.blank _ hc) (by decide)
  · rintro rfl
    exact absurd (g.blank _ hc) (by decide)

/-- The characters of identifiers stand in the way of no scan. -/
theorem identifierRest_ordinary {c : Char} (h : isIdentifierRest c = true) :
    isBlank c = false ∧ c ≠ '"' ∧ c ≠ '/' ∧ c ≠ ':' ∧ c ≠ '\n' := by
  have hranges : ((decide (c.val ≥ 'A'.val ∧ c.val ≤ 'Z'.val) ||
      (decide (c.val ≥ 'a'.val) && decide (c.val ≤ 'z'.val)) ||
      (decide (c.val ≥ '0'.val) && decide (c.val ≤ '9'.val))) || c == '_' || c == '.') = true := h
  have hascii : c.toNat < 128 := by
    simp only [Bool.or_eq_true, Bool.and_eq_true, decide_eq_true_eq, beq_iff_eq] at hranges
    rcases hranges with (((h | h) | h) | rfl) | rfl
    · exact ascii_of_le (by decide : 'Z'.toNat < 128) h.2
    · exact ascii_of_le (by decide : 'z'.toNat < 128) h.2
    · exact ascii_of_le (by decide : '9'.toNat < 128) h.2
    · decide
    · decide
  exact of_ascii (fun c => isIdentifierRest c = true → isBlank c = false ∧ c ≠ '"' ∧ c ≠ '/' ∧ c ≠ ':' ∧ c ≠ '\n')
    (by decide +kernel) hascii h

theorem isIdentifierRest_of_mem {name : List Char} (h : isIdentifier name = true) :
    ∀ c ∈ name, isIdentifierRest c = true := by
  cases name with
  | nil => cases h
  | cons a name =>
    obtain ⟨hstart, hrest⟩ := Bool.and_eq_true_iff.1 h
    intro c hc
    rcases List.mem_cons.1 hc with rfl | hc
    · simp only [isIdentifierStart, Bool.or_eq_true] at hstart
      simp only [isIdentifierRest, Char.isAlphanum, Bool.or_eq_true]
      rcases hstart with h | h
      · exact .inl (.inl (.inl h))
      · exact .inl (.inr h)
    · exact List.all_eq_true.1 hrest c hc

theorem LabelPrefix.ordinary (l : LabelPrefix) :
    ∀ c ∈ l.name, isBlank c = false ∧ c ≠ '"' ∧ c ≠ '/' ∧ c ≠ ':' ∧ c ≠ '\n' :=
  fun c hc => identifierRest_ordinary (isIdentifierRest_of_mem l.identifier c hc)

theorem LabelPrefix.passed (l : LabelPrefix) : Passed l.text := by
  have hname : Passed l.name := passed_plain fun c hc => ⟨(l.ordinary c hc).2.1, (l.ordinary c hc).2.2.1⟩
  have hcolon : Passed [':'] := passed_plain (by simp)
  exact (hname.append l.before.passed).append (hcolon.append l.behind.passed)

theorem Margins.passed_labelText (m : Margins) : Passed m.labelText := by
  unfold Margins.labelText
  cases m.label with
  | none => exact fun _ => rfl
  | some l => exact l.passed

theorem passed_stringLoad (s : List Char) : Passed (stringLoad s) := by
  have hfront : Passed ['l', 'd', 's', 't', 'r', ' '] := passed_plain (by simp)
  exact hfront.append (passed_writeLiteral s)

/-- **The comment is cut off**, and nothing in front of it. -/
theorem Margins.stripComment_line (m : Margins) {text : List Char} (h : Passed text) :
    stripComment false false (m.line text) = m.lead.chars ++ (m.labelText ++ text) ++ m.trail.chars := by
  have hcomment : stripComment false false m.commentText = [] := by
    unfold Margins.commentText
    cases m.comment with
    | none => rfl
    | some c => simp [stripComment]
  have hpassed := (m.lead.passed.append (m.passed_labelText.append h)).append m.trail.passed
  rw [Margins.line, hpassed, hcomment, List.append_nil]

/-! ## Assembling the line -/

theorem bare_stringLoad (s : List Char) : Bare (stringLoad s) :=
  bare_of_ends (by decide) (by decide) (['d', 's', 't', 'r', ' ', '"'] ++ s.flatMap escapeChar)

/-- The trimmed line begins with the label, if there is one, and ends with the literal. -/
theorem Margins.bare (m : Margins) (s : List Char) : Bare (m.labelText ++ stringLoad s) := by
  unfold Margins.labelText
  cases m.label with
  | none => exact bare_stringLoad s
  | some l =>
    have hname := l.identifier
    cases hcs : l.name with
    | nil =>
      rw [hcs] at hname
      cases hname
    | cons a name =>
      have ha := (l.ordinary a (by simp [hcs])).1
      have hquote : isBlank '"' = false := by decide
      have hends := bare_of_ends ha hquote (name ++ l.before.chars ++ ':' :: l.behind.chars ++
        ['l', 'd', 's', 't', 'r', ' ', '"'] ++ s.flatMap escapeChar)
      simpa [LabelPrefix.text, hcs, stringLoad, writeLiteral] using hends

/-- A label that no line has named is defined. -/
theorem label_run (l : LabelPrefix) (md : Metadata) : (label l.name).run ⟨{}, md⟩ =
    (.ok ⟨0⟩, ⟨{ labels := #[none], names := #[String.ofList l.name] }, md⟩) := by
  have hget (f : State → ListingM Label) (st : State) : (get >>= f).run st = (f st).run st := rfl
  unfold label
  simp only [l.identifier, Bool.not_true, Bool.false_eq_true, if_false]
  rw [hget]
  simp only [Array.findIdx?_empty]
  rfl

theorem leadingLabel_run (m : Margins) (s : List Char) (md : Metadata) :
    (leadingLabel (m.labelText ++ stringLoad s)).run ⟨{}, md⟩ = (.ok (stringLoad s), ⟨m.builder, md⟩) := by
  unfold Margins.labelText Margins.builder
  cases m.label with
  | none =>
    -- a colon can only stand inside of the literal, where a quote is in front of it
    have hfront : ':' ∉ ['l', 'd', 's', 't', 'r', ' ', '"'] := by decide
    have hcut := cutAt_append hfront (s.flatMap escapeChar ++ ['"'])
    have hquote : ∀ head, isIdentifier (trim (['l', 'd', 's', 't', 'r', ' ', '"'] ++ head)) = false := by
      intro head
      refine Bool.eq_false_iff.2 fun hname => ?_
      have hmem : '"' ∈ trim (['l', 'd', 's', 't', 'r', ' ', '"'] ++ head) := mem_trim (by decide) (by simp)
      exact (identifierRest_ordinary (isIdentifierRest_of_mem hname _ hmem)).2.1 rfl
    show (leadingLabel (['l', 'd', 's', 't', 'r', ' ', '"'] ++ (s.flatMap escapeChar ++ ['"']))).run _ = _
    unfold leadingLabel
    rw [hcut]
    cases cutAt ':' (s.flatMap escapeChar ++ ['"']) with
    | none => rfl
    | some parts =>
      simp only [Option.map_some, Prod.map, hquote, Bool.and_false]
      rfl
  | some l =>
    have hcolon : ':' ∉ l.name ++ l.before.chars := by
      intro h
      rcases List.mem_append.1 h with h | h
      · exact (l.ordinary _ h).2.2.2.1 rfl
      · exact absurd (l.before.blank _ h) (by decide)
    have hcut := cutAt_append hcolon (':' :: (l.behind.chars ++ stringLoad s))
    have hname : trim (l.name ++ l.before.chars) = l.name := by
      simpa using trim_around (List.forall_mem_nil _) (bare_of_forall fun c hc => (l.ordinary c hc).1) l.before.blank
    have htail : trim (l.behind.chars ++ stringLoad s) = stringLoad s := by
      simpa using trim_around l.behind.blank (bare_stringLoad s) (List.forall_mem_nil _)
    have hsingle : ((l.behind.chars ++ stringLoad s).head? != some ':') = true := by
      cases hcs : l.behind.chars with
      | nil => rfl
      | cons c cs =>
        have hc : c ≠ ':' := by
          rintro rfl
          exact absurd (l.behind.blank ':' (by simp [hcs])) (by decide)
        simpa using hc
    have htext : l.text ++ stringLoad s = l.name ++ l.before.chars ++ ':' :: (l.behind.chars ++ stringLoad s) := by
      simp [LabelPrefix.text]
    show (leadingLabel (l.text ++ stringLoad s)).run _ = _
    unfold leadingLabel
    rw [htext, hcut]
    simp only [cutAt, beq_self_eq_true, if_true, Option.map_some, Prod.map, id, List.append_nil, hname, hsingle,
      l.identifier, Bool.and_self, htail]
    rw [Meets.run_bind, label_run]
    rfl

def loadBytes (t : Token) : List UInt8 := Opcode.ldstr.encode ++ littleEndian 4 t.raw.toNat

theorem instruction_run (s : String) (b : Builder) (md : Metadata) :
    (instruction .ldstr (writeLiteral s.toList)).run ⟨b, md⟩ =
      (.ok (), ⟨{ b with code := b.code ++ (loadBytes (md.defineString s).1).toArray }, (md.defineString s).2⟩) := by
  have hop : Opcode.operand .ldstr = .string := by decide
  have hne : (writeLiteral s.toList).isEmpty = false := rfl
  have htoken : OperandKind.isToken .string = true := rfl
  unfold instruction
  simp only [hop, hne, readLiteral_writeLiteral, reading, building, Builder.emitToken, htoken, reduceCtorEq,
    Bool.false_eq_true, if_false, if_true, pure_bind, String.ofList_toList]
  rfl

theorem statement_run (m : Margins) (s : String) (md : Metadata) :
    (statement (m.lead.chars ++ (m.labelText ++ stringLoad s.toList) ++ m.trail.chars)).run ⟨{}, md⟩ =
      (.ok (), ⟨{ m.builder with code := (loadBytes (md.defineString s).1).toArray }, (md.defineString s).2⟩) := by
  have htrim := trim_around m.lead.blank (m.bare s.toList) m.trail.blank
  have hletters : ∀ c ∈ ['l', 'd', 's', 't', 'r'], (!isBlank c) = true := List.all_eq_true.1 rfl
  have hword : (stringLoad s.toList).takeWhile (!isBlank ·) = ['l', 'd', 's', 't', 'r'] := by
    rw [stringLoad, List.takeWhile_append_of_pos hletters, List.takeWhile_cons_of_neg (by decide), List.append_nil]
  have hoperand : trim ((stringLoad s.toList).dropWhile (!isBlank ·)) = writeLiteral s.toList := by
    rw [stringLoad, List.dropWhile_append_of_pos hletters, List.dropWhile_cons_of_neg (by decide)]
    have hspace : ∀ c ∈ [' '], isBlank c = true := List.all_eq_true.1 rfl
    have hliteral := trim_around hspace (bare_writeLiteral s.toList) (List.forall_mem_nil _)
    rwa [List.append_nil] at hliteral
  have hop : Opcode.ofMnemonic? (String.ofList ['l', 'd', 's', 't', 'r']) = some .ldstr := by decide +kernel
  have hcode : m.builder.code = #[] := by
    unfold Margins.builder
    cases m.label <;> rfl
  rw [statement, htrim, Meets.run_bind, leadingLabel_run]
  have hrun := instruction_run s m.builder md
  rw [hcode, Array.empty_append] at hrun
  simp only [hword, hoperand, hop]
  exact hrun

theorem Margins.not_mem_line (m : Margins) (s : List Char) : '\n' ∉ m.line (stringLoad s) := by
  have hlabel : '\n' ∉ m.labelText := by
    unfold Margins.labelText
    cases m.label with
    | none => exact List.not_mem_nil
    | some l =>
      have hname : '\n' ∉ l.name := fun h => (l.ordinary _ h).2.2.2.2 rfl
      simp [LabelPrefix.text, hname, l.before.inLine, l.behind.inLine]
  have hcomment : '\n' ∉ m.commentText := by
    unfold Margins.commentText
    cases m.comment with
    | none => exact List.not_mem_nil
    | some c => simp [c.property]
  simp [Margins.line, m.lead.inLine, m.trail.inLine, hlabel, hcomment, stringLoad, not_mem_writeLiteral]

theorem Margins.line_ne_nil (m : Margins) (s : List Char) : m.line (stringLoad s) ≠ [] := by
  simp [Margins.line, stringLoad]

theorem builder_build (m : Margins) (code : Array UInt8) :
    ({ m.builder with code } : Builder).build = .ok ⟨code, 8, [], []⟩ := by
  unfold Margins.builder
  cases m.label <;> rfl

theorem assembleLines_single {number : Nat} {line : List Char} {st t : State}
    (h : (statement (stripComment false false line)).run st = (.ok (), t)) :
    (assembleLines number [line]).run st = (.ok (), t) := by
  have hget (f : State → ExceptT AssembleError (StateM State) Unit) : (get >>= f).run st = (f st).run st := rfl
  unfold assembleLines
  rw [hget]
  have hrun : ((statement (stripComment false false line)).run).run st = (.ok (), t) := h
  rw [hrun]
  rfl

theorem instructions_load (t : Token) :
    (Code.mk (loadBytes t).toArray).instructions = .ok [⟨.ldstr, .token t⟩] := by
  have hencode : Instruction.encodeFrom 0 [⟨.ldstr, .token t⟩] = loadBytes t := List.append_nil _
  have hsize : Code.size ⟨(loadBytes t).toArray⟩ = 5 := rfl
  unfold Code.instructions
  apply Code.instructionsFrom_encodeFrom
  · rw [hsize]
    decide
  · rw [hsize]
    exact Nat.le_of_ble_eq_true rfl
  · rw [hsize]
    rfl
  · intro i hi
    rw [List.mem_singleton.1 hi]
    rfl
  · intro k hk
    rw [hencode, Nat.zero_add, List.getElem?_toArray]
  · intro j hj
    cases hj

theorem userString_defineString (md : Metadata) (s : String) (h : md.strings.size < 2 ^ 24 - 1) :
    (md.defineString s).2.userString (md.defineString s).1 = .ok s := by
  have htable : (md.defineString s).1.table = Token.userString := Token.table_make _ _ (by decide)
  have hrow : (md.defineString s).1.row = md.strings.size + 1 := Token.row_make _ _ (by omega)
  unfold Metadata.userString Metadata.rowOf
  rw [htable, hrow]
  simp [Metadata.defineString]

/-- **String literals survive assembly.** A line that loads a string by its literal assembles to that one load, whatever
the string has in it and whatever label, blanks and comment stand around the instruction. Its token then names exactly
the string, as long as there is room for one more. -/
theorem string_literal_survives (md : Metadata) (s : String) (m : Margins) (h : md.strings.size < 2 ^ 24 - 1) :
    ∃ body md' t, assemble md (String.ofList (m.line (stringLoad s.toList))) = (.ok body, md') ∧
      (Code.mk body.code).instructions = .ok [⟨.ldstr, .token t⟩] ∧ body.regions = [] ∧
      md'.userString t = .ok s ∧ md' = { md with strings := md.strings.push s } := by
  have hlines := lines_of_not_mem (m.line_ne_nil s.toList) (m.not_mem_line s.toList)
  have hstatement := statement_run m s md
  rw [← m.stripComment_line (passed_stringLoad s.toList)] at hstatement
  have hrun : ((assembleLines 1 [m.line (stringLoad s.toList)]).run).run ⟨{}, md⟩ = _ :=
    assembleLines_single hstatement
  have hassemble : assemble md (String.ofList (m.line (stringLoad s.toList))) =
      (.ok ⟨(loadBytes (md.defineString s).1).toArray, 8, [], []⟩, (md.defineString s).2) := by
    rw [assemble, String.toList_ofList, hlines, hrun]
    simp only [builder_build]
    rfl
  exact ⟨_, _, _, hassemble, instructions_load _, rfl, userString_defineString md s h, rfl⟩

/-- A label in front, a comment behind, and a string with quotes, slashes, a colon and a letter of two bytes. -/
def quotedMargins : Margins where
  lead := ⟨['\t'], List.all_eq_true.1 rfl, by decide⟩
  label := some ⟨['n', 'e', 'x', 't'], by decide, ⟨[' '], List.all_eq_true.1 rfl, by decide⟩,
    ⟨[], List.all_eq_true.1 rfl, by decide⟩⟩
  trail := ⟨[' ', '\r'], List.all_eq_true.1 rfl, by decide⟩
  comment := some ⟨['"', 'a', '"', ':', ' ', '/', '/'], by decide⟩

theorem quotedMargins_survives : Metadata.core.strings.size < 2 ^ 24 - 1 ∧
    ∃ body md' t, assemble Metadata.core "\tnext :ldstr \"é://a \\\"b\\\\\\n\" \r//\"a\": //" = (.ok body, md') ∧
      (Code.mk body.code).instructions = .ok [⟨.ldstr, .token t⟩] ∧ md'.userString t = .ok "é://a \"b\\\n" := by
  have hline : String.ofList (quotedMargins.line (stringLoad "é://a \"b\\\n".toList)) =
      "\tnext :ldstr \"é://a \\\"b\\\\\\n\" \r//\"a\": //" := by decide +kernel
  have hroom : Metadata.core.strings.size < 2 ^ 24 - 1 := by decide +kernel
  obtain ⟨body, md', t, hassemble, hread, -, hstring, -⟩ :=
    string_literal_survives Metadata.core "é://a \"b\\\n" quotedMargins hroom
  rw [hline] at hassemble
  exact ⟨hroom, body, md', t, hassemble, hread, hstring⟩

end Listing

end ManagedCode
