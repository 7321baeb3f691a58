import SafeMarkup.Proofs.ScannedSpans
import SafeMarkup.Proofs.ArenaBuild
import SafeMarkup.Proofs.MarkerReplacement
/-!
# No scanner fails

Markup, references and markers are found by going over the bytes of a text.  No byte behind the end is read, no text is
cut inside a character and no loop stays where it is, whatever the text (`scanners_total`); and what is found is what
reading finds (`Scanner.exists_scan?`, `Reference.decode?_eq`, `Marker.next?_append`).
-/
namespace SafeMarkup

open Text

namespace Scanner

/-! ## A whole text -/

variable {s : Input} {c a : Scanner}

/-- Whether a text can be scanned on. -/
def Open (s : Input) (c : Scanner) : Prop := c.names.Agrees ∧ ∃ t, s.from? c.place = some t

/-- `a` has all tokens of the text from the place of `c` on. -/
def Ends (s : Input) (c a : Scanner) : Prop := ∀ t, s.from? c.place = some t → Reads c a (SafeMarkup.tokens t)

theorem ends_of_reads {t : Text} (h : s.from? c.place = some t) (hr : Reads c a (SafeMarkup.tokens t)) : Ends s c a :=
  fun u hu => by
    obtain rfl := Option.some.inj (h.symm.trans hu)
    exact hr

theorem Advances.refines {x : Char} {t : Text} {p : Option (Pass Scanner Scanner)}
    (h : s.from? c.place = some (x :: t)) (hp : Advances s c (Span.read (x :: t)) p) :
    Pass.Refines place s.size (Open s) (Ends s) c p := by
  cases hp with
  | again hreads hlt hfrom hrest =>
    have hsize := Input.add_byteLength hfrom
    refine .again hlt (by omega) ⟨⟨hreads.agrees, _, hfrom⟩, fun a ha => ends_of_reads h ?_⟩
    have hbehind := ha _ hfrom
    refine (hreads.trans hbehind).congr fun hs => ?_
    rw [hrest (Nat.le_trans (NameIndex.size_mono hbehind.grows) hs), ← tokens_cons]
  | done hreads hrest =>
    refine .done (ends_of_reads h (hreads.congr fun hs => ?_))
    rw [tokens_cons, hrest hs, tokens_nil, List.append_nil]

theorem refines_pass? (hc : c.Open s) : Pass.Refines place s.size (Open s) (Ends s) c (pass? s c) := by
  obtain ⟨hn, t, h⟩ := hc
  cases t with
  | nil =>
    have hsize : c.place = s.size := Input.add_byteLength h
    rw [pass?, if_neg (by omega)]
    exact .done (ends_of_reads h (tokens_nil ▸ .refl hn))
  | cons x t => exact (advances_pass? hn h).refines h

/-- **Every text is scanned to its end**, and gives the tokens that it is read into, up to as many names as there are
words; beyond that the tokens have other names, but each of them has some. -/
theorem exists_scan? (t : Text) : ∃ c ts, scan? t = some c ∧ c.named? = some ts ∧
    (c.names.size ≤ 2 ^ 32 → ts = SafeMarkup.tokens t) := by
  have hopen : Open (Input.ofText t) ⟨0, #[], .empty⟩ := ⟨NameIndex.agrees_empty, t, Input.from?_ofText t⟩
  obtain ⟨c, hc, hends⟩ := exists_loop?_of_refines (fun _ => refines_pass?) hopen
  obtain ⟨ts, hts, heq⟩ := (hends t (Input.from?_ofText t)).named [] rfl
  exact ⟨c, ts, hc, hts, heq⟩

end Scanner

/-! ## Numbers in tokens -/

theorem exists_of_mapM {α β : Type} {f : α → Option β} {xs : List α} {ys : List β} (hxs : xs.mapM f = some ys) :
    ∀ x ∈ xs, ∃ y, f x = some y := by
  rw [mapM_eq_some_iff] at hxs
  induction hxs with
  | nil => exact fun _ hx => absurd hx List.not_mem_nil
  | cons hx _ ih => exact List.forall_mem_cons.2 ⟨⟨_, hx⟩, ih⟩

theorem NameIndex.exists_get?_of_token? {t : NameIndex} {tok : Token UInt32} {tok' : Token Text}
    (h : t.token? tok = some tok') : ∀ i ∈ tok.names, ∃ name, t.get? i = some name := by
  cases tok with
  | doctype | comment | text => exact fun i hi => absurd hi List.not_mem_nil
  | endTag i =>
    rw [token?_endTag] at h
    obtain ⟨name, hname, -⟩ := Option.map_eq_some_iff.1 h
    exact List.forall_mem_singleton.2 ⟨name, hname⟩
  | startTag i as selfClosing =>
    rw [token?_startTag] at h
    obtain ⟨name, hname, h⟩ := Option.bind_eq_some_iff.1 h
    obtain ⟨as', has, -⟩ := Option.map_eq_some_iff.1 h
    refine List.forall_mem_cons.2 ⟨⟨name, hname⟩, List.forall_mem_map.2 fun a ha => ?_⟩
    obtain ⟨b, hb⟩ := exists_of_mapM has a ha
    obtain ⟨name, hname, -⟩ := Option.map_eq_some_iff.1 hb
    exact ⟨name, hname⟩

/-- **A scanned text has the names of its tokens, and builds its tree.** -/
theorem Scanner.exists_build? (t : Text) : ∃ c ts, scan? t = some c ∧
    (∀ tok ∈ c.tokens, ∀ i ∈ tok.names, ∃ name, c.names.get? i = some name) ∧ c.stream.toTokens? = some ts ∧
    c.stream.build? = some (Node.ofTokens ts) ∧ (c.names.size ≤ 2 ^ 32 → ts = SafeMarkup.tokens t) := by
  obtain ⟨c, ts, hc, hts, heq⟩ := exists_scan? t
  have hstream := (toTokens?_stream c).trans hts
  refine ⟨c, ts, hc, fun tok htok => ?_, hstream, TokenStream.build?_of_toTokens? hstream, heq⟩
  obtain ⟨tok', htok'⟩ := exists_of_mapM hts tok (Array.mem_toList_iff.2 htok)
  exact NameIndex.exists_get?_of_token? htok'

/-! ## Markers -/

namespace Marker

variable {nonce t : Text}

/-- A search that begins at a place of the text ends, and what it finds begins there or later and ends at a place. -/
theorem exists_next? {start : Nat} {rest : Text} (h : fromByte? start t = some rest) :
    ∃ found, next? nonce t start = some found ∧ found = (locate nonce start (pieces nonce rest)).head? ∧
      ∀ o ∈ found, start ≤ o.start ∧ o.start < o.stop ∧ ∃ behind, fromByte? o.stop t = some behind := by
  obtain ⟨⟨before, rest⟩, hsplit, rfl⟩ := Option.map_eq_some_iff.1 h
  obtain ⟨rfl, rfl⟩ := splitByte?_eq_some_iff.1 hsplit
  refine ⟨_, next?_append before rest, rfl, fun o ho => ?_⟩
  have hmem := List.mem_of_head? ho
  have hstands := standsAt_of_mem_locate hmem
  refine ⟨start_le_of_mem_locate hmem, hstands.start_lt_stop, ?_⟩
  obtain ⟨u, digits, after, ht, -, -, -, rfl⟩ := hstands
  refine ⟨after, ?_⟩
  rw [ht, stop_occurrence, ← byteLength_append, ← List.append_assoc, fromByte?_append]

end Marker

/-- **No scanner fails, and each finds what reading finds.**  Whatever the text, scanning it ends, each number in its
tokens is in their table, and they build a tree; they are the tokens that are read, up to as many names as there are
words.  Decoding ends.  So does the search for the next marker from any place of the text, which leads to a place
further on; so do the search for all markers and replacing them, whatever their values are. -/
theorem scanners_total (t : Text) :
    (∃ c ts, Scanner.scan? t = some c ∧ (∀ tok ∈ c.tokens, ∀ i ∈ tok.names, ∃ name, c.names.get? i = some name) ∧
      c.stream.toTokens? = some ts ∧ c.stream.build? = some (Node.ofTokens ts) ∧
      (c.names.size ≤ 2 ^ 32 → ts = tokens t)) ∧
    Reference.decode? t = some (Reference.decode t) ∧
    ∀ nonce : Text, (∀ start rest, fromByte? start t = some rest → ∃ found, Marker.next? nonce t start = some found ∧
        found = (Marker.locate nonce start (Marker.pieces nonce rest)).head? ∧
        ∀ o ∈ found, start ≤ o.start ∧ o.start < o.stop ∧ ∃ behind, fromByte? o.stop t = some behind) ∧
      Marker.find? nonce t = some (Marker.occurrences nonce t) ∧
      ∀ {m : Type → Type} [Monad m] [LawfulMonad m] (f : Nat → m (Option Text)), (Marker.replaceAll? nonce f t).run =
        (fun out => some (if Marker.isIn nonce t then .made out else .unchanged)) <$> Marker.replaceM nonce f t :=
  ⟨Scanner.exists_build? t, Reference.decode?_eq t, fun nonce =>
    ⟨fun _ _ => Marker.exists_next?, Marker.find?_eq nonce t, fun f => Marker.run_replaceAll?_eq f nonce t⟩⟩

/-- A marker behind a character of two bytes, and a search that begins between them. -/
theorem scanners_total_behind_two_bytes :
    fromByte? 2 "é$$$n:7$$$<b".toList = some "$$$n:7$$$<b".toList ∧
      (∃ c n, Scanner.scan? "é$$$n:7$$$<b".toList = some c ∧ c.stream.build? = some n) ∧
      Marker.next? ['n'] "é$$$n:7$$$<b".toList 2 = some (some ⟨2, 11, 7⟩) := by
  obtain ⟨⟨c, ts, hc, -, -, hbuild, -⟩, -, hmarkers⟩ := scanners_total "é$$$n:7$$$<b".toList
  have hplace : fromByte? 2 "é$$$n:7$$$<b".toList = some "$$$n:7$$$<b".toList := by decide +kernel
  obtain ⟨found, hfound, heq, -⟩ := (hmarkers ['n']).1 2 _ hplace
  have hfirst : (Marker.locate ['n'] 2 (Marker.pieces ['n'] "$$$n:7$$$<b".toList)).head? = some ⟨2, 11, 7⟩ := by
    decide +kernel
  exact ⟨hplace, ⟨c, _, hc, hbuild⟩, hfound.trans (congrArg some (heq.trans hfirst))⟩

end SafeMarkup
