import Mathlib

/-! # Redacting URLs

`redact_urls` (`arb-reth-sync/src/l1_sync.rs`) replaces the URLs of a provider message before it is logged.  Its offsets
count bytes, and a slice that would cut a character in two panics, which is `none` here.

The character before the scheme is taken to be one byte long.  If it is not, the function panics; otherwise the URLs are
replaced (`redact_urls_total`).  A closing parenthesis and a comma end a URL although it may contain them. -/

namespace ArbReth.Sync.Redact

/-- A string, by its characters. -/
abbrev Str := List Char

def byteLength (s : Str) : ℕ := (s.map Char.utf8Size).sum

/-- The slices `s[..n]` and `s[n..]`. -/
def splitAtByte : Str → ℕ → Option (Str × Str)
  | s, 0 => some ([], s)
  | [], _ + 1 => none
  | c :: s, n + 1 =>
    if n + 1 < c.utf8Size then none else (splitAtByte s (n + 1 - c.utf8Size)).map fun p => (c :: p.1, p.2)

def separator : Str := [':', '/', '/']

def findSeparator : Str → Option ℕ
  | [] => none
  | c :: s => if separator <+: c :: s then some 0 else (findSeparator s).map (c.utf8Size + ·)

def find (p : Char → Bool) : Str → Option ℕ
  | [] => none
  | c :: s => if p c then some 0 else (find p s).map (c.utf8Size + ·)

def rfind (p : Char → Bool) : Str → Option ℕ
  | [] => none
  | c :: s => ((rfind p s).map (c.utf8Size + ·)).or (if p c then some 0 else none)

def isSchemeChar (c : Char) : Bool := c.isAlphanum || c = '+' || c = '-' || c = '.'

/-- The Unicode property `White_Space`. -/
def isWhitespace (c : Char) : Bool :=
  (9 ≤ c.toNat ∧ c.toNat ≤ 13) ∨ (0x2000 ≤ c.toNat ∧ c.toNat ≤ 0x200a) ∨
    c.toNat ∈ [0x20, 0x85, 0xa0, 0x1680, 0x2028, 0x2029, 0x202f, 0x205f, 0x3000]

def endsUrl (c : Char) : Bool := isWhitespace c || c = ')' || c = ',' || c = '\x22'

def placeholder : Str := ['<', 'r', 'e', 'd', 'a', 'c', 't', 'e', 'd', '-', 'u', 'r', 'l', '>']

/-- One turn of the loop: the text before the first URL and what follows the URL, if there is one. -/
def nextUrl (rest : Str) : Option (Option (Str × Str)) :=
  match findSeparator rest with
  | none => some none
  | some sep => do
    let beforeSep ← splitAtByte rest sep
    let schemeStart := (rfind (fun c => !isSchemeChar c) beforeSep.1).elim 0 (· + 1)
    let text ← splitAtByte rest schemeStart
    let afterSep ← splitAtByte rest (sep + 3)
    let stop := (find endsUrl afterSep.2).getD (byteLength afterSep.2)
    let url ← splitAtByte afterSep.2 stop
    some (some (text.1, url.2))

/-- The last character is one byte long. -/
def endsAscii (text : Str) : Bool := text.getLast?.all (·.utf8Size = 1)

/-! ### Slices -/

theorem splitAtByte_add (a b : Str) (n : ℕ) :
    splitAtByte (a ++ b) (byteLength a + n) = (splitAtByte b n).map fun p => (a ++ p.1, p.2) := by
  induction a with
  | nil => simp [byteLength]
  | cons c a ih =>
    have hpos := c.utf8Size_pos
    have hlength : byteLength (c :: a) + n = c.utf8Size - 1 + (byteLength a + n) + 1 := by
      simp only [byteLength, List.map_cons, List.sum_cons]
      omega
    rw [List.cons_append, hlength, splitAtByte, if_neg (by omega),
      show c.utf8Size - 1 + (byteLength a + n) + 1 - c.utf8Size = byteLength a + n by omega, ih, Option.map_map]
    rfl

theorem splitAtByte_append (a b : Str) : splitAtByte (a ++ b) (byteLength a) = some (a, b) := by
  have h := splitAtByte_add a b 0
  rw [Nat.add_zero, splitAtByte] at h
  simpa using h

theorem rfind_concat (p : Char → Bool) (s : Str) (c : Char) :
    rfind p (s ++ [c]) = if p c then some (byteLength s) else rfind p s := by
  induction s with
  | nil => simp [rfind, byteLength]
  | cons d s ih =>
    rw [List.cons_append, rfind, ih]
    split
    · simp [byteLength]
    · rfl

/-- The slice up to the character before the scheme and one byte more. -/
theorem splitAtByte_rfind (p : Char → Bool) (before rest : Str) :
    (splitAtByte (before ++ rest) ((rfind (fun c => !p c) before).elim 0 (· + 1))).map Prod.fst =
      if endsAscii (before.rdropWhile p) then some (before.rdropWhile p) else none := by
  induction before using List.reverseRecOn generalizing rest with
  | nil => simp [rfind, splitAtByte, endsAscii]
  | append_singleton before c ih =>
    rw [rfind_concat, List.rdropWhile_concat]
    cases hp : p c with
    | true => simpa using ih (c :: rest)
    | false =>
      have hpos := c.utf8Size_pos
      have hcut : splitAtByte (c :: rest) 1 = if c.utf8Size = 1 then some ([c], rest) else none := by
        rw [splitAtByte]
        by_cases hone : c.utf8Size = 1
        · simp [hone, splitAtByte]
        · rw [if_pos (by omega), if_neg hone]
      simp only [Bool.not_false, if_true, Option.elim_some, Bool.false_eq_true, if_false, List.append_assoc,
        List.singleton_append, splitAtByte_add, hcut]
      split <;> simp_all [endsAscii]

theorem find_getD (p : Char → Bool) (s : Str) : (find p s).getD (byteLength s) = byteLength (s.takeWhile (!p ·)) := by
  induction s with
  | nil => rfl
  | cons c s ih =>
    rw [find, List.takeWhile_cons]
    cases hp : p c with
    | true => rfl
    | false =>
      simp only [byteLength, List.map_cons, List.sum_cons, Bool.not_false, if_true, Bool.false_eq_true, if_false] at ih ⊢
      rw [← ih]
      cases find p s <;> rfl

/-! ### The first URL -/

/-- The text before the first separator and the text after it. -/
def cut : Str → Option (Str × Str)
  | [] => none
  | c :: s => if separator <+: c :: s then some ([], (c :: s).drop 3) else (cut s).map fun p => (c :: p.1, p.2)

theorem cut_none {s : Str} (h : cut s = none) : findSeparator s = none ∧ ¬ separator <:+: s := by
  induction s with
  | nil => exact ⟨rfl, by simp [separator]⟩
  | cons c s ih =>
    rw [cut] at h
    split at h
    · cases h
    · rename_i hpre
      obtain ⟨hfind, hinfix⟩ := ih (Option.map_eq_none_iff.mp h)
      refine ⟨by rw [findSeparator, if_neg hpre, hfind]; rfl, fun h => ?_⟩
      exact (List.infix_cons_iff.mp h).elim hpre hinfix

theorem cut_some {s before after : Str} (h : cut s = some (before, after)) :
    s = before ++ (separator ++ after) ∧ findSeparator s = some (byteLength before) ∧ ¬ separator <:+: before := by
  induction s generalizing before with
  | nil => cases h
  | cons c s ih =>
    rw [cut] at h
    split at h
    · rename_i hpre
      cases h
      obtain ⟨t, ht⟩ := hpre
      refine ⟨?_, by rw [findSeparator, if_pos ⟨t, ht⟩]; rfl, by simp [separator]⟩
      rw [← ht]
      rfl
    · rename_i hpre
      obtain ⟨p, hp, heq⟩ := Option.map_eq_some_iff.mp h
      cases heq
      obtain ⟨hs, hfind, hinfix⟩ := ih hp
      refine ⟨congrArg (c :: ·) hs, by rw [findSeparator, if_neg hpre, hfind]; rfl, fun h => ?_⟩
      rcases List.infix_cons_iff.mp h with hstart | h
      · refine hpre (hstart.trans ?_)
        rw [hs]
        exact List.prefix_append (c :: p.1) _
      · exact hinfix h

def textOf (before : Str) : Str := before.rdropWhile isSchemeChar

def skipUrl (after : Str) : Str := after.dropWhile (!endsUrl ·)

theorem takeWhile_append_skipUrl (after : Str) : after.takeWhile (!endsUrl ·) ++ skipUrl after = after :=
  List.takeWhile_append_dropWhile

theorem cut_length {s before after : Str} (h : cut s = some (before, after)) : (skipUrl after).length < s.length := by
  have hle : (skipUrl after).length ≤ after.length := List.length_dropWhile_le _ after
  rw [(cut_some h).1, List.length_append, List.length_append, separator]
  simp only [List.length_cons]
  omega

theorem nextUrl_none {rest : Str} (h : cut rest = none) : nextUrl rest = some none := by
  rw [nextUrl, (cut_none h).1]

theorem nextUrl_some {rest before after : Str} (h : cut rest = some (before, after)) :
    nextUrl rest = if endsAscii (textOf before) then some (some (textOf before, skipUrl after)) else none := by
  obtain ⟨rfl, hfind, -⟩ := cut_some h
  have hafter : splitAtByte (before ++ (separator ++ after)) (byteLength before + 3) = some (before ++ separator, after) := by
    have hlength : byteLength (before ++ separator) = byteLength before + 3 := by
      rw [byteLength, List.map_append, List.sum_append]
      rfl
    rw [← hlength, ← List.append_assoc, splitAtByte_append]
  have hstop : splitAtByte after ((find endsUrl after).getD (byteLength after)) =
      some (after.takeWhile (!endsUrl ·), skipUrl after) := by
    have h := splitAtByte_append (after.takeWhile (!endsUrl ·)) (skipUrl after)
    rwa [takeWhile_append_skipUrl, ← find_getD] at h
  have htext := splitAtByte_rfind isSchemeChar before (separator ++ after)
  rw [← textOf] at htext
  rw [nextUrl, hfind]
  simp only [splitAtByte_append, hafter, hstop, Option.bind_eq_bind, Option.bind_some]
  generalize splitAtByte _ _ = slices at htext ⊢
  cases slices with
  | none =>
    split at htext
    · cases htext
    · rw [if_neg ‹_›]
      rfl
  | some slices =>
    split at htext
    · rw [if_pos ‹_›, ← Option.some.inj htext]
      rfl
    · cases htext

theorem nextUrl_length {rest text tail : Str} (h : nextUrl rest = some (some (text, tail))) :
    tail.length < rest.length := by
  cases hcut : cut rest with
  | none =>
    rw [nextUrl_none hcut] at h
    cases h
  | some parts =>
    rw [nextUrl_some hcut] at h
    split at h
    · cases h
      exact cut_length hcut
    · cases h

def redactUrls (rest : Str) : Option Str :=
  match _h : nextUrl rest with
  | none => none
  | some none => some rest
  | some (some (text, tail)) => (redactUrls tail).map (text ++ placeholder ++ ·)
termination_by rest.length
decreasing_by
  exact nextUrl_length ‹_›

theorem redactUrls_none {rest : Str} (h : cut rest = none) : redactUrls rest = some rest := by
  rw [redactUrls]
  split <;> simp_all [nextUrl_none]

theorem redactUrls_some {rest before after : Str} (h : cut rest = some (before, after)) :
    redactUrls rest =
      if endsAscii (textOf before) then (redactUrls (skipUrl after)).map (textOf before ++ placeholder ++ ·) else none := by
  have hnext := nextUrl_some h
  rw [redactUrls]
  split at hnext
  · rw [if_pos ‹_›]
    split <;> simp_all
  · rw [if_neg ‹_›]
    split <;> simp_all

/-! ### Whole messages -/

/-- A message as texts, each with the URL that follows it, and the text after the last URL. -/
inductive Matches : Str → List (Str × Str) → Str → Prop
  | last {s : Str} : ¬ separator <:+: s → Matches s [] s
  | url {text scheme body tail last : Str} {pieces : List (Str × Str)} : ¬ separator <:+: text ++ scheme →
      (∀ c ∈ text.getLast?, isSchemeChar c = false) → (∀ c ∈ scheme, isSchemeChar c = true) →
      (∀ c ∈ body, endsUrl c = false) → (∀ c ∈ tail.head?, endsUrl c = true) → Matches tail pieces last →
      Matches (text ++ (scheme ++ (separator ++ (body ++ tail)))) ((text, scheme ++ (separator ++ body)) :: pieces) last

variable {pieces : List (Str × Str)}

theorem Matches.append_eq {s last : Str} (h : Matches s pieces last) :
    s = pieces.flatMap (fun p => p.1 ++ p.2) ++ last := by
  induction h with
  | last _ => rfl
  | url _ _ _ _ _ _ ih =>
    rw [ih, List.flatMap_cons]
    simp only [List.append_assoc]

/-- No occurrence across a character that is not part of the separator. -/
theorem not_infix_append {a b : Str} {x : Char} (hx : x ∉ separator) (ha : ¬ separator <:+: a) (hb : ¬ separator <:+: b) :
    ¬ separator <:+: a ++ x :: b := by
  induction a with
  | nil =>
    intro h
    rcases List.infix_cons_iff.mp h with hstart | h
    · exact hx (List.mem_of_mem_head? (by rw [← (List.cons_prefix_cons.mp hstart).1]; rfl))
    · exact hb h
  | cons c a ih =>
    intro h
    rcases List.infix_cons_iff.mp h with hstart | h
    · refine ha (List.IsPrefix.isInfix ?_)
      rcases a with _ | ⟨d, _ | ⟨e, a⟩⟩ <;> simp [separator] at hstart hx ⊢ <;> grind
    · exact ih (fun h => ha (h.trans (List.suffix_cons c a).isInfix)) h

theorem Matches.no_separator {s last : Str} (h : Matches s pieces last) :
    ¬ separator <:+: pieces.flatMap (fun p => p.1 ++ placeholder) ++ last := by
  induction h with
  | last hlast => exact hlast
  | @url text scheme _ _ last pieces hbefore _ _ _ _ _ ih =>
    have hplaceholder : placeholder = '<' :: (placeholder.tail.dropLast ++ ['>']) := by decide
    rw [List.flatMap_cons, List.append_assoc, List.append_assoc, hplaceholder, List.cons_append, List.append_assoc]
    refine not_infix_append (by decide) (fun h => hbefore (h.trans (List.infix_append' [] text scheme))) ?_
    exact not_infix_append (by decide) (by decide) ih

theorem exists_matches (message : Str) : ∃ pieces last, Matches message pieces last ∧
    redactUrls message =
      if pieces.all (endsAscii ·.1) then some (pieces.flatMap (fun p => p.1 ++ placeholder) ++ last) else none := by
  cases hcut : cut message with
  | none => exact ⟨[], message, .last (cut_none hcut).2, by simp [redactUrls_none hcut]⟩
  | some parts =>
    obtain ⟨hmessage, -, hbefore⟩ := cut_some hcut
    obtain ⟨pieces, last, hmatches, hredact⟩ := exists_matches (skipUrl parts.2)
    refine ⟨(textOf parts.1,
      parts.1.rtakeWhile isSchemeChar ++ (separator ++ parts.2.takeWhile (!endsUrl ·))) :: pieces, last, ?_, ?_⟩
    · have hsplit : textOf parts.1 ++ parts.1.rtakeWhile isSchemeChar = parts.1 := List.rdropWhile_append_rtakeWhile
      rw [hmessage]
      nth_rw 1 [← hsplit, ← takeWhile_append_skipUrl parts.2]
      rw [List.append_assoc]
      refine .url (hsplit.symm ▸ hbefore) ?_ ?_ ?_ ?_ hmatches
      · intro c hc
        obtain ⟨hne, rfl⟩ := List.mem_getLast?_eq_getLast hc
        exact Bool.eq_false_of_not_eq_true (List.rdropWhile_last_not isSchemeChar parts.1 hne)
      · exact fun c hc => List.mem_rtakeWhile_imp hc
      · exact fun c hc => by simpa using List.mem_takeWhile_imp hc
      · intro c hc
        have hnot := List.head?_dropWhile_not (!endsUrl ·) parts.2
        rw [← skipUrl, hc] at hnot
        simpa using hnot
    · rw [redactUrls_some hcut, hredact, List.flatMap_cons]
      cases htext : endsAscii (textOf parts.1) <;> cases hpieces : pieces.all (endsAscii ·.1) <;>
        simp [htext, hpieces]
termination_by message.length
decreasing_by
  exact cut_length hcut

/-- **What is redacted.**  A message is returned with a placeholder for each URL, unless the text before one ends in a
character of more than one byte, which panics; and the result has no URL. -/
theorem redact_urls_total (message : Str) : ∃ pieces last, Matches message pieces last ∧
    message = pieces.flatMap (fun p => p.1 ++ p.2) ++ last ∧
    redactUrls message =
      (if pieces.all (endsAscii ·.1) then some (pieces.flatMap (fun p => p.1 ++ placeholder) ++ last) else none) ∧
    ¬ separator <:+: pieces.flatMap (fun p => p.1 ++ placeholder) ++ last := by
  obtain ⟨pieces, last, hmatches, hredact⟩ := exists_matches message
  exact ⟨pieces, last, hmatches, hmatches.append_eq, hredact, hmatches.no_separator⟩

/-- A quotation mark of three bytes before the URL. -/
theorem quoted_url_panics : redactUrls ['“', 'h', ':', '/', '/', 'x'] = none := by
  rw [redactUrls_some (show cut ['“', 'h', ':', '/', '/', 'x'] = some (['“', 'h'], ['x']) by decide +kernel),
    if_neg (by decide +kernel)]

/-! ### What the URL was does not matter -/

def urlPunctuation : Str :=
  ['-', '.', '_', '~', ':', '/', '?', '#', '[', ']', '@', '!', '$', '&', '\x27', '(', ')', '*', '+', ',', ';', '=', '%']

/-- The characters of RFC 3986. -/
def isUrlChar (c : Char) : Bool := c.toNat < 128 && (c.isAlphanum || urlPunctuation.contains c)

theorem endsUrl_of_isUrlChar {c : Char} (h : isUrlChar c = true) (hparen : c ≠ ')') (hcomma : c ≠ ',') :
    endsUrl c = false := by
  have hascii : ∀ n < 128, isUrlChar (Char.ofNat n) = true → Char.ofNat n ≠ ')' → Char.ofNat n ≠ ',' →
      endsUrl (Char.ofNat n) = false := by decide +kernel
  have hlt : c.toNat < 128 := of_decide_eq_true ((Bool.and_eq_true _ _).mp h).1
  rw [← Char.ofNat_toNat c] at h hparen hcomma ⊢
  exact hascii c.toNat hlt h hparen hcomma

theorem cut_append (pre t : Str) :
    cut (pre ++ (separator ++ t)) = some (((cut pre).map fun p => (p.1, p.2 ++ (separator ++ t))).getD (pre, t)) := by
  induction pre with
  | nil => rfl
  | cons c pre ih =>
    by_cases hpre : separator <+: c :: pre
    · obtain ⟨u, hu⟩ := hpre
      rw [← hu]
      rfl
    · have hnot : ¬ separator <+: c :: (pre ++ (separator ++ t)) := by
        intro h
        rcases pre with _ | ⟨d, _ | ⟨e, pre⟩⟩ <;> simp [separator] at h hpre
        grind
      rw [List.cons_append, cut, if_neg hnot, ih, cut, if_neg hpre]
      cases cut pre <;> rfl

/-- What is hidden of a URL: characters of a URL, none of which ends the scan. -/
def Hidden (url : Str) : Prop := ∀ c ∈ url, isUrlChar c = true ∧ c ≠ ')' ∧ c ≠ ','

theorem Hidden.skipUrl_append {url post : Str} (h : Hidden url)
    (hpost : ∀ c ∈ post.head?, isWhitespace c = true ∨ c = '\x22') : skipUrl (url ++ post) = post := by
  have hgo : ∀ c ∈ url, (!endsUrl c) = true := fun c hc => by
    simp [endsUrl_of_isUrlChar (h c hc).1 (h c hc).2.1 (h c hc).2.2]
  rw [skipUrl, List.dropWhile_append_of_pos hgo]
  cases post with
  | nil => rfl
  | cons c post =>
    have hc : endsUrl c = true := by
      rcases hpost c rfl with h | rfl
      · simp [endsUrl, h]
      · rfl
    simp [hc]

theorem skipUrl_append_separator (after t : Str) : skipUrl (after ++ (separator ++ t)) =
    if (skipUrl after).isEmpty then skipUrl t else skipUrl after ++ (separator ++ t) := List.dropWhile_append

/-- What stands before a URL either panics or is put before the redaction of what follows the URL. -/
theorem redactUrls_context (pre : Str) : (∀ t, redactUrls (pre ++ (separator ++ t)) = none) ∨
    ∃ out, ∀ t, redactUrls (pre ++ (separator ++ t)) = (redactUrls (skipUrl t)).map (out ++ ·) := by
  have hcut (t : Str) := cut_append pre t
  cases hpre : cut pre with
  | none =>
    simp only [hpre, Option.map_none, Option.getD_none] at hcut
    cases htext : endsAscii (textOf pre) with
    | false => exact .inl fun t => by simp [redactUrls_some (hcut t), htext]
    | true => exact .inr ⟨textOf pre ++ placeholder, fun t => by rw [redactUrls_some (hcut t), if_pos htext]⟩
  | some parts =>
    simp only [hpre, Option.map_some, Option.getD_some] at hcut
    cases htext : endsAscii (textOf parts.1) with
    | false => exact .inl fun t => by simp [redactUrls_some (hcut t), htext]
    | true =>
      have hredact (t : Str) := redactUrls_some (hcut t)
      simp only [htext, if_true, skipUrl_append_separator] at hredact
      -- the URL is part of an earlier one, or a later URL of the rest
      by_cases hnested : (skipUrl parts.2).isEmpty = true
      · simp only [hnested, if_true] at hredact
        exact .inr ⟨_, hredact⟩
      · simp only [hnested, Bool.false_eq_true, if_false] at hredact
        rcases redactUrls_context (skipUrl parts.2) with hnone | ⟨out, hout⟩
        · exact .inl fun t => by rw [hredact, hnone, Option.map_none]
        · refine .inr ⟨textOf parts.1 ++ placeholder ++ out, fun t => ?_⟩
          rw [hredact, hout, Option.map_map]
          exact congrArg (Option.map · _) (funext fun x => (List.append_assoc ..).symm)
termination_by pre.length
decreasing_by
  exact cut_length hpre

theorem isSchemeChar_of_endsUrl {c : Char} (h : endsUrl c = true) : isSchemeChar c = false := by
  have hascii : ∀ n < 128, endsUrl (Char.ofNat n) = true → isSchemeChar (Char.ofNat n) = false := by decide +kernel
  by_cases hlt : c.toNat < 128
  · rw [← Char.ofNat_toNat c] at h ⊢
    exact hascii c.toNat hlt h
  · have hne (d : Char) (hd : d.toNat < 128) : c ≠ d := fun heq => hlt (heq ▸ hd)
    have halpha : c.isAlphanum = false := by
      have hval : c.val.toNat = c.toNat := rfl
      simp [Char.isAlphanum, Char.isAlpha, Char.isUpper, Char.isLower, Char.isDigit, UInt32.le_iff_toNat_le]
      omega
    simp [isSchemeChar, halpha, hne '+' (by decide), hne '-' (by decide), hne '.' (by decide)]

/-- A character that ends a URL is no part of the next one. -/
theorem head?_redactUrls {c : Char} {s out : Str} (hc : endsUrl c = true) (h : redactUrls (c :: s) = some out) :
    out.head? = some c := by
  cases hcut : cut (c :: s) with
  | none =>
    rw [redactUrls_none hcut] at h
    rw [← Option.some.inj h]
    rfl
  | some parts =>
    obtain ⟨heq, -, -⟩ := cut_some hcut
    rw [redactUrls_some hcut] at h
    split at h
    · obtain ⟨rest, -, rfl⟩ := Option.map_eq_some_iff.mp h
      have hsplit : textOf parts.1 ++ parts.1.rtakeWhile isSchemeChar = parts.1 := List.rdropWhile_append_rtakeWhile
      rw [← hsplit] at heq
      cases htext : textOf parts.1 with
      | cons d text =>
        rw [htext] at heq
        rw [← (List.cons.inj heq).1]
        rfl
      | nil =>
        rw [htext] at heq
        cases hscheme : parts.1.rtakeWhile isSchemeChar with
        | nil =>
          rw [hscheme] at heq
          rw [(List.cons.inj heq).1] at hc
          cases hc
        | cons d scheme =>
          rw [hscheme] at heq
          have hd : isSchemeChar d = true := List.mem_rtakeWhile_imp (hscheme ▸ List.mem_cons_self)
          rw [← (List.cons.inj heq).1, isSchemeChar_of_endsUrl hc] at hd
          cases hd
    · cases h

/-- The part of a URL that is shown begins with what ends the scan. -/
theorem exists_shown {url : Str} (hurl : ∀ c ∈ url, isUrlChar c = true) (h : ¬ Hidden url) (post : Str) :
    ∃ c s, (c = ')' ∨ c = ',') ∧ skipUrl (url ++ post) = c :: s := by
  have hne : skipUrl url ≠ [] := fun hnil => h fun c hc => by
    have hgo := List.dropWhile_eq_nil_iff.mp hnil c hc
    refine ⟨hurl c hc, ?_, ?_⟩ <;>
    · rintro rfl
      cases hgo
  obtain ⟨c, s, hs⟩ := List.exists_cons_of_ne_nil hne
  have hstop : endsUrl c = true := by
    have hnot := List.head?_dropWhile_not (!endsUrl ·) url
    rw [← skipUrl, hs] at hnot
    simpa using hnot
  have hc : c ∈ url := (List.dropWhile_sublist _).subset (show c ∈ skipUrl url by simp [hs])
  refine ⟨c, s ++ post, ?_, ?_⟩
  · by_contra hnot
    obtain ⟨hparen, hcomma⟩ := not_or.mp hnot
    rw [endsUrl_of_isUrlChar (hurl c hc) hparen hcomma] at hstop
    cases hstop
  · have happend : skipUrl (url ++ post) = if (skipUrl url).isEmpty then skipUrl post else skipUrl url ++ post :=
      List.dropWhile_append
    rw [happend, hs]
    rfl

/-- **What hides a URL.**  Two messages that differ only in what follows the separator of a URL become the same if no
parenthesis is closed in there and no comma occurs; and otherwise the message shows more than that there was a URL. -/
theorem redact_hides_url (pre post : Str) (hpost : ∀ c ∈ post.head?, isWhitespace c = true ∨ c = '\x22') :
    (∀ url url', Hidden url → Hidden url' →
      redactUrls (pre ++ (separator ++ (url ++ post))) = redactUrls (pre ++ (separator ++ (url' ++ post)))) ∧
    ∀ url, (∀ c ∈ url, isUrlChar c = true) → redactUrls (pre ++ (separator ++ (url ++ post))) ≠ none →
      (redactUrls (pre ++ (separator ++ (url ++ post))) = redactUrls (pre ++ (separator ++ post)) ↔ Hidden url) := by
  have hsame (url url') (hurl : Hidden url) (hurl' : Hidden url') :
      redactUrls (pre ++ (separator ++ (url ++ post))) = redactUrls (pre ++ (separator ++ (url' ++ post))) := by
    rcases redactUrls_context pre with hnone | ⟨out, hout⟩
    · rw [hnone, hnone]
    · rw [hout, hout, hurl.skipUrl_append hpost, hurl'.skipUrl_append hpost]
  have hempty : Hidden [] := fun c hc => nomatch hc
  refine ⟨hsame, fun url hurl hok => ⟨fun heq => ?_, fun h => hsame url [] h hempty⟩⟩
  by_contra hshown
  obtain ⟨c, s, hc, hskip⟩ := exists_shown hurl hshown post
  rcases redactUrls_context pre with hnone | ⟨out, hout⟩
  · exact hok (hnone _)
  · obtain ⟨shown, hshows⟩ := Option.ne_none_iff_exists'.mp hok
    have hurlOut := hshows
    rw [heq] at hshows
    rw [hout, hskip] at hurlOut
    have hpostOut := hempty.skipUrl_append hpost ▸ hout ([] ++ post) ▸ hshows
    obtain ⟨x, hx, hxs⟩ := Option.map_eq_some_iff.mp hurlOut
    obtain ⟨y, hy, hys⟩ := Option.map_eq_some_iff.mp hpostOut
    obtain rfl := List.append_cancel_left (hxs.trans hys.symm)
    -- one output begins with the parenthesis or the comma, and the other with what follows the URL
    have hhead := head?_redactUrls (by rcases hc with rfl | rfl <;> rfl) hx
    cases post with
    | nil =>
      rw [redactUrls_none rfl] at hy
      rw [← Option.some.inj hy] at hhead
      cases hhead
    | cons d post =>
      have hd : endsUrl d = true := by
        rcases hpost d rfl with h | rfl
        · simp [endsUrl, h]
        · rfl
      rw [head?_redactUrls hd hy] at hhead
      obtain rfl := Option.some.inj hhead
      rcases hc with rfl | rfl <;> exact absurd (hpost _ rfl) (by decide)

theorem redact_hides_url_sample :
    redactUrls ['h', ':', '/', '/', 'k', '@', 'a', '\x22'] = redactUrls ['h', ':', '/', '/', '\x22'] :=
  (redact_hides_url ['h'] ['\x22'] (by simp)).1 ['k', '@', 'a'] [] (by simp [Hidden]; decide) (by simp [Hidden])

theorem url_tail_is_kept : isUrlChar ')' = true ∧ isUrlChar 'k' = true ∧ isUrlChar 's' = true ∧
      redactUrls [':', '/', '/', ')', 'k'] ≠ redactUrls [':', '/', '/', ')', 's'] := by
  have hredact (c : Char) (hc : cut [')', c] = none) : redactUrls [':', '/', '/', ')', c] = some (placeholder ++ [')', c]) := by
    rw [redactUrls_some (show cut [':', '/', '/', ')', c] = some ([], [')', c]) from rfl)]
    simp [endsAscii, endsUrl, textOf, skipUrl, redactUrls_none hc]
  rw [hredact 'k' (by decide), hredact 's' (by decide)]
  decide +kernel

end ArbReth.Sync.Redact
