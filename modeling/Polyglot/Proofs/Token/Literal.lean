import Polyglot.Proofs.Call.Heads
import Polyglot.Proofs.Token.Place
import Polyglot.Proofs.Token.Shut

/-!
# String literals on one line

A scan knows quotes of one character only. A short literal, between two of them, is one token.
A long one, between two times three, is read as an empty string, then one string after another
as the quotes in its body come, and whatever the body has between two of those is read as code.
Main statement: nothing of a long literal is taken for code exactly if between those strings its
body has blanks, and in front of a quote perhaps letters that mark a string.
-/
namespace Polyglot.Token
open Text (size)

/-- The letters that may stand in front of a literal, if any. -/
def IsMark (m : Text) : Prop := m = [] ∨ Text.lower m ∈ Language.python.stringMarks

instance (m : Text) : Decidable (IsMark m) := inferInstanceAs (Decidable (_ ∨ _))

/-- No quote ends the body early: a backslash takes the next character with it. -/
inductive Shielded (q : Char) : Text → Prop
  | nil : Shielded q []
  | escape (d : Char) {r : Text} (h : Shielded q r) : Shielded q ('\\' :: d :: r)
  | plain {c : Char} {r : Text} (hb : c ≠ '\\') (hq : c ≠ q) (h : Shielded q r) :
    Shielded q (c :: r)

/-- The stretches of a body outside the strings that its quotes begin and end, where `inside` is
the quote of the string that is open, and `gap` a stretch so far. -/
def exposed : (inside : Option Char) → (gap : Text) → Text → List Text
  | none, gap, [] => [gap]
  | some _, _, [] => []
  | none, gap, c :: r =>
    if Language.python.quotes.contains c then gap :: exposed (some c) [] r
    else exposed none (gap ++ [c]) r
  | some q, _, c :: r => if c = q then exposed none [] r else exposed (some q) [] r

/-- The stretch is not taken for code: blanks, and letters that mark the string behind it. -/
def Spared (gap : Text) : Prop := IsMark (Text.trimStart gap)

instance (gap : Text) : Decidable (Spared gap) := inferInstanceAs (Decidable (IsMark _))

def AllStr (text : Text) : Prop := ∀ t ∈ tokenize .python text, t.kind = .str

instance (text : Text) : Decidable (AllStr text) := inferInstanceAs (Decidable (∀ _ ∈ _, _))

def markLetters : List Char := ['r', 'b', 'f', 'u']

theorem startsName_of_lower {c : Char} (h : c.toLower ∈ markLetters) :
    Language.python.startsName c = true := by
  have hletters : markLetters.all Language.python.startsName = true := by decide +kernel
  have hcapitals : ∀ n ∈ List.range 26,
      Language.python.startsName (Char.ofNat (65 + n)) = true := by decide +kernel
  unfold Char.toLower at h
  split at h
  · next hc =>
    obtain ⟨hlo, hhi⟩ := hc
    have hlo : 65 ≤ c.toNat := hlo
    have hhi : c.toNat ≤ 90 := hhi
    have hcap := hcapitals (c.toNat - 65) (List.mem_range.2 (by omega))
    rwa [Nat.add_sub_cancel' hlo, Char.ofNat_toNat] at hcap
  · exact List.all_eq_true.1 hletters c h

theorem letters_of_isMark {m : Text} (h : IsMark m) :
    ∀ c ∈ m, Language.python.startsName c = true := by
  have hmarks : Language.python.stringMarks.all (·.all markLetters.contains) = true := by
    decide +kernel
  intro c hc
  rcases h with rfl | h
  · cases hc
  · have hword := List.all_eq_true.1 (List.all_eq_true.1 hmarks _ h) _ (List.mem_map_of_mem hc)
    exact startsName_of_lower (List.contains_iff_mem.1 hword)

theorem not_backslash {q : Char} (hq : Language.python.quotes.contains q = true) : q ≠ '\\' := by
  rintro rfl
  cases hq

theorem not_comment {q : Char} (hq : Language.python.quotes.contains q = true) :
    q ∉ Language.python.commentMark := by
  intro hm
  rw [List.mem_singleton.1 hm] at hq
  cases hq

theorem Shielded.stringTail {q : Char} {b : Text} (h : Shielded q b) (hq : q ≠ '\\') (rest : Text) :
    stringTail q (b ++ q :: rest) = b.length + 1 := by
  induction h with
  | nil => rw [List.nil_append, stringTail_cons q rest hq, if_pos rfl, List.length_nil]
  | escape d _ ih =>
    rw [List.cons_append, List.cons_append, Token.stringTail, if_pos rfl, ih]
    rfl
  | plain hb hc _ ih =>
    rw [List.cons_append, stringTail_cons q _ hb, if_neg hc, ih]
    rfl

theorem takeWhile_name_quote {c : Char} (hc : Language.python.quotes.contains c = true)
    (u r : Text) : (u ++ c :: r).takeWhile Language.python.continuesName =
      u.takeWhile Language.python.continuesName := by
  refine takeWhile_append_of_head u ?_
  rintro x ⟨⟩
  cases hx : Language.python.continuesName c with
  | false => rfl
  | true =>
    rw [isQuote_of_continuesName hx] at hc
    cases hc

theorem lexeme_of_isMark {d c : Char} {u : Text} (hm : IsMark (d :: u))
    (hc : Language.python.quotes.contains c = true) (r : Text) :
    lexeme .python d (u ++ c :: r) = (.str, u.length + (1 + stringTail c r)) := by
  have hletters := letters_of_isMark hm
  have hword : Text.lower (d :: u) ∈ Language.python.stringMarks :=
    hm.resolve_left (List.cons_ne_nil d u)
  have htake : (u ++ c :: r).takeWhile Language.python.continuesName = u := by
    rw [takeWhile_name_quote hc, List.takeWhile_eq_self_iff]
    exact fun x hx => continuesName_of_startsName (hletters x (List.mem_cons_of_mem d hx))
  have hname : nameTail .python (u ++ c :: r) = u.length := by rw [nameTail, htake]
  rw [lexeme_of_startsName (hletters d List.mem_cons_self), htake, hname, List.drop_left,
    wordLexeme, hc, List.contains_iff_mem.2 hword]
  rfl

theorem isMark_of_lexeme {d c : Char} {u r : Text}
    (hu : ∀ x ∈ d :: u, Language.python.quotes.contains x = false)
    (hc : Language.python.quotes.contains c = true)
    (h : (lexeme .python d (u ++ c :: r)).1 = .str) : IsMark (d :: u) := by
  have hx := lexed .python d (u ++ c :: r)
  generalize lexeme .python d (u ++ c :: r) = x at h hx
  cases hx with
  | comment => cases h
  | word => cases h
  | number => cases h
  | punct => cases h
  | quote hm hq =>
    rw [hu d List.mem_cons_self] at hq
    cases hq
  | @marked q s hs hd hw =>
    rw [nameTail] at hd
    rw [takeWhile_name_quote hc] at hd hw
    obtain ⟨hq, hword⟩ := Bool.and_eq_true_iff.1 hw
    -- A name that ended within `u` would have a quote of `u` behind it.
    have hall : u.takeWhile Language.python.continuesName = u := by
      refine (List.takeWhile_prefix _).eq_of_length_le (Nat.le_of_not_lt fun hlt => ?_)
      rw [List.drop_append_of_le_length (Nat.le_of_lt hlt), List.drop_eq_getElem_cons hlt] at hd
      have hmem := (List.cons.inj hd).1 ▸ List.getElem_mem hlt
      rw [hu q (List.mem_cons_of_mem d hmem)] at hq
      cases hq
    rw [hall] at hword
    exact .inr (List.contains_iff_mem.1 hword)

theorem forall_scan_iff (pos : Nat) (text : Text) :
    (∀ t ∈ scan .python 0 pos text, t.kind = .str) ↔ AllStr text := by
  rw [scan_eq_moved, List.forall_mem_map]
  exact Iff.rfl

theorem allStr_blanks {u : Text} (hu : ∀ c ∈ u, Text.isBlank c = true) (r : Text) :
    AllStr (u ++ r) ↔ AllStr r := by
  rw [AllStr, tokenize, scan_blanks hu, forall_scan_iff]

theorem allStr_cons {c : Char} {r : Text} (hb : Text.isBlank c = false) :
    AllStr (c :: r) ↔
      (lexeme .python c r).1 = .str ∧ AllStr (r.drop (lexeme .python c r).2) := by
  rw [AllStr, tokenize, scan_cons r 0 hb, List.forall_mem_cons, (scan_first r 0 hb).2,
    forall_scan_iff]

theorem allStr_quote {c : Char} (hc : Language.python.quotes.contains c = true) (r : Text) :
    AllStr (c :: r) ↔ AllStr (r.drop (stringTail c r)) := by
  have hm := isPrefixOf_commentMark (not_comment hc) r
  rw [allStr_cons (isBlank_of_quote hc), lexeme_quote hm hc]
  exact and_iff_right rfl

theorem allStr_stretch {e : Text} {c : Char}
    (he : ∀ x ∈ e, Language.python.quotes.contains x = false)
    (hc : Language.python.quotes.contains c = true) (r : Text) :
    AllStr (e ++ c :: r) ↔ Spared e ∧ AllStr (r.drop (stringTail c r)) := by
  have hblanks : ∀ x ∈ e.takeWhile Text.isBlank, Text.isBlank x = true := fun x hx =>
    List.mem_takeWhile_imp hx
  have hparts : e.takeWhile Text.isBlank ++ Text.trimStart e = e :=
    List.takeWhile_append_dropWhile
  rw [← hparts, List.append_assoc, allStr_blanks hblanks, hparts, Spared]
  have hrest : ∀ x ∈ Text.trimStart e, Language.python.quotes.contains x = false :=
    fun x hx => he x ((List.dropWhile_sublist _).subset hx)
  cases ht : Text.trimStart e with
  | nil => exact (allStr_quote hc r).trans (and_iff_right (.inl rfl)).symm
  | cons d u =>
    have hb : Text.isBlank d = false := by
      have hhead := List.head?_dropWhile_not Text.isBlank e
      rw [← Text.trimStart, ht] at hhead
      exact hhead
    have hdrop : (u ++ c :: r).drop (u.length + (1 + stringTail c r)) =
        r.drop (stringTail c r) := by
      rw [← List.drop_drop, List.drop_left, Nat.add_comm, List.drop_succ_cons]
    rw [ht] at hrest
    rw [List.cons_append, allStr_cons hb]
    constructor
    · rintro ⟨hk, h⟩
      have hm := isMark_of_lexeme hrest hc hk
      rw [lexeme_of_isMark hm hc, hdrop] at h
      exact ⟨hm, h⟩
    · rintro ⟨hm, h⟩
      rw [lexeme_of_isMark hm hc, hdrop]
      exact ⟨rfl, h⟩

theorem allStr_replicate {q : Char} (hq : Language.python.quotes.contains q = true) (n : Nat) :
    AllStr (List.replicate n q) := by
  induction n using Nat.strongRecOn with
  | ind n ih =>
    cases n with
    | zero => exact nofun
    | succ n =>
      rw [List.replicate_succ, allStr_quote hq, List.drop_replicate]
      exact ih _ (Nat.lt_succ_of_le (Nat.sub_le _ _))

theorem allStr_body {q : Char} (hq : Language.python.quotes.contains q = true) {b : Text}
    (hb : '\\' ∉ b) :
    (∀ c, Language.python.quotes.contains c = true →
      (AllStr ((b ++ List.replicate 3 q).drop (stringTail c (b ++ List.replicate 3 q))) ↔
        ∀ e ∈ exposed (some c) [] b, Spared e)) ∧
    ∀ gap, (∀ x ∈ gap, Language.python.quotes.contains x = false) →
      (AllStr (gap ++ (b ++ List.replicate 3 q)) ↔ ∀ e ∈ exposed none gap b, Spared e) := by
  -- A quote in the body takes the scan from the one state into the other, so both go together.
  induction b with
  | nil =>
    refine ⟨fun c _ => ?_, fun gap hgap => ?_⟩
    · rw [List.nil_append, List.drop_replicate, exposed]
      exact iff_of_true (allStr_replicate hq _) nofun
    · rw [List.nil_append, List.replicate_succ, allStr_stretch hgap hq, List.drop_replicate,
        exposed, List.forall_mem_singleton]
      exact and_iff_left (allStr_replicate hq _)
  | cons d b ih =>
    rw [List.mem_cons, not_or] at hb
    obtain ⟨hd, hb⟩ := hb
    obtain ⟨ihin, ihout⟩ := ih hb
    refine ⟨fun c hc => ?_, fun gap hgap => ?_⟩
    · rw [List.cons_append, stringTail_cons c _ (Ne.symm hd), exposed]
      by_cases hdc : d = c
      · rw [if_pos hdc, if_pos hdc]
        exact ihout [] (List.forall_mem_nil _)
      · rw [if_neg hdc, if_neg hdc]
        exact ihin c hc
    · rw [exposed]
      cases hq' : Language.python.quotes.contains d with
      | true =>
        rw [List.cons_append, allStr_stretch hgap hq', ihin d hq', if_pos rfl,
          List.forall_mem_cons]
      | false =>
        have hgap' : ∀ x ∈ gap ++ [d], Language.python.quotes.contains x = false :=
          List.forall_mem_append.2 ⟨hgap, List.forall_mem_singleton.2 hq'⟩
        rw [if_neg Bool.false_ne_true, ← ihout (gap ++ [d]) hgap', List.append_assoc]
        rfl

theorem tokenize_of_lexeme {l : Language} {c : Char} {r : Text} {kind : Kind}
    (hb : Text.isBlank c = false) (h : lexeme l c r = (kind, r.length)) :
    tokenize l (c :: r) = [⟨kind, c :: r, 0⟩] := by
  rw [tokenize, scan_cons r 0 hb, h, List.take_length, scan_all (Nat.le_refl _)]

theorem tokenize_short {p b : Text} {q : Char} (hp : IsMark p)
    (hq : Language.python.quotes.contains q = true) (hb : Shielded q b) :
    tokenize .python (p ++ q :: (b ++ [q])) = [⟨.str, p ++ q :: (b ++ [q]), 0⟩] := by
  have htail := hb.stringTail (not_backslash hq) []
  cases p with
  | nil =>
    refine tokenize_of_lexeme (isBlank_of_quote hq) ?_
    rw [lexeme_quote (isPrefixOf_commentMark (not_comment hq) _) hq, htail, List.length_append]
    rfl
  | cons d u =>
    have hfirst := beginsWord_of_startsName (letters_of_isMark hp d List.mem_cons_self)
    refine tokenize_of_lexeme hfirst.blank ?_
    change lexeme .python d (u ++ q :: (b ++ [q])) = (.str, (u ++ q :: (b ++ [q])).length)
    rw [lexeme_of_isMark hp hq, htail, List.length_append, List.length_cons, List.length_append,
      List.length_singleton, Nat.add_comm 1]

theorem IsMark.spared {p : Text} (hp : IsMark p) : Spared p := by
  cases p with
  | nil => exact hp
  | cons d u =>
    have hfirst := beginsWord_of_startsName (letters_of_isMark hp d List.mem_cons_self)
    rw [Spared, Text.trimStart_cons hfirst.blank]
    exact hp

theorem allStr_long_iff {p b : Text} {q : Char} (hp : IsMark p)
    (hq : Language.python.quotes.contains q = true) (hb : '\\' ∉ b) :
    AllStr (p ++ q :: q :: q :: (b ++ [q, q, q])) ↔ ∀ e ∈ exposed (some q) [] b, Spared e := by
  have hletters : ∀ x ∈ p, Language.python.quotes.contains x = false := fun x hx =>
    (beginsWord_of_startsName (letters_of_isMark hp x hx)).quote
  rw [allStr_stretch hletters hq, stringTail_cons q _ (not_backslash hq), if_pos rfl,
    List.drop_one, List.tail_cons, allStr_quote hq, ← (allStr_body hq hb).1 q hq]
  exact and_iff_right hp.spared

example : AllStr "f\"\"\"it's \x7bg(1)\x7d\"\"\"" := by decide +kernel

theorem str_of_start {pos : Nat} {a post : Text} {t : Token} (h : AllStr a)
    (ht : t ∈ scan .python 0 pos (a ++ post)) (hs : t.start < pos + size a) : t.kind = .str := by
  have hall := (forall_scan_iff pos a).2 h
  rcases scan_append_cases .python pos (Nat.zero_le a.length) with
    ⟨-, happend⟩ | ⟨ts, kind, c, r, p, hscan, hp, hc, hx, happend⟩
  · rw [happend, List.mem_append] at ht
    refine ht.elim (hall t) fun hpost => ?_
    have hstart := start_of_mem_scan hpost
    omega
  · rw [hscan] at hall
    obtain ⟨hts, hlast⟩ := List.forall_mem_append.1 hall
    have hkind : (lexeme .python c r).1 = .str := by
      rw [hx]
      exact hlast _ List.mem_cons_self
    rw [happend, List.mem_append, scan_cons _ _ hc] at ht
    rcases ht with ht | ht
    · exact hts t ht
    rcases List.mem_cons.1 ht with rfl | ht
    · exact lexeme_str_append hkind post
    · -- The last token may go on behind `a`, but it reaches to its end.
      have hle : r.length ≤ (lexeme .python c (r ++ post)).2 := by
        refine Nat.le_of_not_lt fun hlt => ?_
        rw [← lexeme_append (Nat.le_of_lt hlt), hx] at hlt
        exact Nat.lt_irrefl _ hlt
      have hstart := start_of_mem_scan ht
      rw [List.take_append, List.take_of_length_le hle, Text.size_append] at hstart
      rw [size] at hp
      omega

/-- Of what begins among these bytes of the line nothing is taken for code. -/
structure Hidden (line : Text) (i j : Nat) : Prop where
  str : ∀ t ∈ tokenize .python line, i ≤ t.start → t.start < j → t.kind = .str
  calls : ∀ functions own number calls,
    CallSite.onLine .python functions own number line = .ok calls →
      ∀ c ∈ calls, c.start < i ∨ j ≤ c.start
  unclosed : ∀ functions own number e,
    CallSite.onLine .python functions own number line = .error e →
      ∃ t ∈ tokenize .python line, (t.start < i ∨ j ≤ t.start) ∧ e = ⟨.unclosedCall t.text, number⟩
  bindings : ∀ number, ∀ b ∈ Binding.ofTokens .python line number (tokenize .python line),
    ∃ t ∈ tokenize .python line, (t.start < i ∨ j ≤ t.start) ∧ t.isIdent = true ∧ b.name = t.text
  marks : ∀ mark, ∀ t ∈ tokenize .python line, t.isPunct mark = true → t.start < i ∨ j ≤ t.start

theorem hidden_of_str {line : Text} {i j : Nat}
    (h : ∀ t ∈ tokenize .python line, i ≤ t.start → t.start < j → t.kind = .str) :
    Hidden line i j := by
  have hout : ∀ t ∈ tokenize .python line, t.kind ≠ .str → t.start < i ∨ j ≤ t.start := by
    intro t ht hk
    by_contra hin
    exact hk (h t ht (by omega) (by omega))
  have hident : ∀ t ∈ tokenize .python line, t.isIdent = true → t.start < i ∨ j ≤ t.start := by
    intro t ht hi
    refine hout t ht fun hk => ?_
    rw [isIdent, hk] at hi
    cases hi
  have hhead : ∀ {known t r}, CallSite.HeadIn .python known none (tokenize .python line) t r →
      t ∈ tokenize .python line ∧ (t.start < i ∨ j ≤ t.start) := by
    rintro known t r ⟨pre, hts, hh⟩
    have hm : t ∈ tokenize .python line := hts ▸ List.mem_append_right pre List.mem_cons_self
    simp only [CallSite.isHead, Bool.and_eq_true] at hh
    exact ⟨hm, hident t hm hh.1.1.1⟩
  refine ⟨h, ?_, ?_, ?_, ?_⟩
  · intro functions own number calls hcalls c hc
    have hscanned := CallSite.scanned_onLine (l := .python) functions own number line
    rw [hcalls] at hscanned
    obtain ⟨t, r, k, hh, -, rfl⟩ := hscanned c hc
    exact (hhead hh).2
  · intro functions own number e he
    have hscanned := CallSite.scanned_onLine (l := .python) functions own number line
    rw [he] at hscanned
    obtain ⟨t, r, hh, -, rfl⟩ := hscanned
    exact ⟨t, (hhead hh).1, (hhead hh).2, rfl⟩
  · intro number b hb
    obtain ⟨-, ⟨t, ht, hi, hn⟩, -⟩ := Binding.placed_of_mem hb
    have hm : t ∈ tokenize .python line := (code_initial .python 0 0 line).subset ht
    exact ⟨t, hm, hident t hm hi, hi, hn⟩
  · intro mark t ht hp
    refine hout t ht fun hk => ?_
    rw [isPunct, hk] at hp
    cases hp

theorem AllStr.hidden {pre lit post : Text} (h : AllStr lit)
    (hstart : ∃ t ∈ tokenize .python (pre ++ (lit ++ post)), t.start = size pre) :
    Hidden (pre ++ (lit ++ post)) (size pre) (size pre + size lit) := by
  obtain ⟨t, ht, hpre⟩ := hstart
  obtain ⟨ts, us, hts⟩ := List.append_of_mem ht
  obtain ⟨u, v, htext, -, hu, hv, htu⟩ := scan_before hts
  rw [hpre, Nat.zero_add] at htu
  obtain ⟨rfl, rfl⟩ : u = pre ∧ v = lit ++ post := by
    have hpre := Text.takeBytes_size pre (lit ++ post)
    rw [htext, htu, Text.takeBytes_size] at hpre
    rw [hpre, List.append_cancel_left_eq] at htext
    exact ⟨hpre, htext.symm⟩
  refine hidden_of_str fun x hx hlo hhi => ?_
  rw [hts, ← hv, List.mem_append] at hx
  rw [Nat.zero_add] at hx
  rcases hx with hx | hx
  · rw [← hu] at hx
    have hstop := stop_le_of_mem_scan hx
    have hlt := start_lt_stop hx
    omega
  · exact str_of_start h hx hhi

/-- A short literal is one string token. A long one with no backslash in its body scans to strings
exactly if what its own quotes leave exposed is spared. Whatever scans to strings hides all it has
from the line that it stands in. -/
theorem literals_scan {p : Text} {q : Char} (hp : IsMark p)
    (hq : Language.python.quotes.contains q = true) :
    (∀ b, Shielded q b →
      tokenize .python (p ++ q :: (b ++ [q])) = [⟨.str, p ++ q :: (b ++ [q]), 0⟩]) ∧
    (∀ b, '\\' ∉ b →
      (AllStr (p ++ q :: q :: q :: (b ++ [q, q, q])) ↔ ∀ e ∈ exposed (some q) [] b, Spared e)) ∧
    ∀ pre lit post, AllStr lit →
      (∃ t ∈ tokenize .python (pre ++ (lit ++ post)), t.start = size pre) →
        Hidden (pre ++ (lit ++ post)) (size pre) (size pre + size lit) :=
  ⟨fun _ => tokenize_short hp hq, fun _ => allStr_long_iff hp hq, fun _ _ _ => AllStr.hidden⟩

/-- A marked literal with an escaped quote, a long one that its quotes leave exposed, so that a call
is found in it, and a long one that is spared. -/
theorem literals_scan_quotes :
    tokenize .python "rb'\\'('" = [⟨.str, "rb'\\'('", 0⟩] ∧
      (exposed (some '"') [] "see \"g(1)\" here" = [("g(1)" : Text)] ∧
        ¬ AllStr "\"\"\"see \"g(1)\" here\"\"\"" ∧
        CallSite.onLine .python (Catalog.empty.put ⟨"g", .javascript, ["n"], "", 0, 2⟩) [] 1
          "x = \"\"\"see \"g(1)\" here\"\"\"" = .ok [⟨"g", [("1" : Text)], 12, 16, 1⟩]) ∧
      exposed (some '"') [] "a \"\" f\"b\" c" = [([] : Text), "b"] ∧
        Hidden "say(\"\"\"a \"\" f\"b\" c\"\"\", g(1))" 4 21 := by
  have hquote : Language.python.quotes.contains '"' = true := by decide
  have hmark : IsMark "rb" := by decide +kernel
  have hescaped : Shielded '\'' "\\'(" := .escape _ (.plain (by decide) (by decide) .nil)
  have hexposed : exposed (some '"') [] "see \"g(1)\" here" = [("g(1)" : Text)] := by
    decide +kernel
  have hspared : exposed (some '"') [] "a \"\" f\"b\" c" = [([] : Text), "b"] := by decide +kernel
  have hshort := (literals_scan hmark (by decide)).1 _ hescaped
  obtain ⟨-, hlong, hhidden⟩ := literals_scan (p := []) (.inl rfl) hquote
  have hleak := hlong "see \"g(1)\" here" (by decide)
  have hsafe := hlong "a \"\" f\"b\" c" (by decide)
  rw [hexposed] at hleak
  rw [hspared] at hsafe
  refine ⟨hshort, ⟨hexposed, fun h => ?_, by decide +kernel⟩, hspared, ?_⟩
  · exact absurd (hleak.1 h _ List.mem_cons_self) (by decide +kernel)
  · exact hhidden "say(" _ ", g(1))" (hsafe.2 (by decide +kernel))
      ⟨⟨.str, "\"\"", 4⟩, by decide +kernel, rfl⟩

end Polyglot.Token
