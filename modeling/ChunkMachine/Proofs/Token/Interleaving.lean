import ChunkMachine.Proofs.Token.Calls

set_option relaxedAutoImplicit false
set_option autoImplicit false

/-!
# One stream of tokens

A scanner can be asked for its next token at any time, or be iterated up to the end of the text.
Both ways share the place that it has reached, but only the iteration keeps in mind that it has
handed out the end. Whoever mixes them, and goes back to copies of the scanner in between, still
reads one stream: the tokens of the text, and then its end again and again.

## Main definitions

* `Scanner.Request`, `Scanner.Answer`, `Scanner.serve` — what a scanner is asked for, and gives.
* `Scanner.Reader` — a scanner with the answers that have led to where it stands.
* `Scanner.Command`, `Scanner.Desk` — requests among saved and restored copies.
* `Scanner.Reader.Reads` — the reader has read the first tokens of the stream.

## Main results

* `Scanner.scan_of_eof` — the end of the text is a fixed point.
* `Scanner.Reader.Reads.ask` — a request goes on with the stream.
* `Scanner.interleaving` — what is read by any commands.
-/

namespace ChunkMachine.Scanner

/-- What a scanner is asked for: the next token, the next token of its iteration, or the number of
tokens that are left of it. These can be mixed in any way. -/
inductive Request where
  /-- The next token, whatever the iteration has come to. -/
  | scan
  /-- The next token of the iteration, if it is not finished. -/
  | next
  /-- The number of tokens that are left of the iteration. -/
  | count
  deriving DecidableEq, Repr

/-- What a scanner gives. The tokens that are counted are gone, so they are listed here. -/
inductive Answer where
  /-- A token was scanned. -/
  | scanned (token : Token)
  /-- The iteration has yielded a token, or nothing. -/
  | yielded (item : Option Token)
  /-- Tokens were counted. -/
  | counted (tokens : List Token)
  deriving DecidableEq, Repr

/-- The tokens that an answer takes from the text, whether they are handed out or only counted. -/
def Answer.tokens : Answer → List Token
  | scanned token => [token]
  | yielded item => item.toList
  | counted tokens => tokens

/-- The tokens among them that are handed out by the iteration. A count goes through the iteration,
too. -/
def Answer.iterated : Answer → List Token
  | scanned _ => []
  | yielded item => item.toList
  | counted tokens => tokens

/-- What a scanner answers to a request, and the scanner after it. Every request has an answer. -/
def serve (s : Scanner) : Request → Answer × Scanner
  | .scan => (.scanned s.scan.1, s.scan.2)
  | .next => (.yielded s.next?.1, s.next?.2)
  | .count => (.counted s.drain.1.toList, s.drain.2)

/-- A scanner, and the answers on the way to where it stands. A copy of a scanner has the same way
behind it. -/
structure Reader where
  /-- The scanner where it stands. -/
  scanner : Scanner
  /-- The answers that it gave on its way, from the first to the last. -/
  answers : List Answer
  deriving DecidableEq, Repr

namespace Reader

/-- The reader at the start of a text, which has given no answers. -/
def ofString (text : String) : Reader := ⟨.ofString text, []⟩

/-- The reader after one more request, with the answer behind the others. -/
def ask (r : Reader) (request : Request) : Reader :=
  ⟨(r.scanner.serve request).2, r.answers ++ [(r.scanner.serve request).1]⟩

/-- The tokens that were taken from the text, in order, by whatever request. -/
def tokens (r : Reader) : List Token := r.answers.flatMap Answer.tokens

end Reader

/-- What can be done with a scanner: to ask it, to save a copy of it, and to go back to one of the
copies, counted from the first one. -/
inductive Command where
  /-- To ask the scanner. -/
  | ask (request : Request)
  /-- To save a copy of the scanner. -/
  | save
  /-- To go back to a copy. -/
  | restore (copy : Nat)
  deriving DecidableEq, Repr

/-- A reader, and the copies that were saved. A copy brings its own answers with it. -/
structure Desk where
  /-- The reader that is asked. -/
  reader : Reader
  /-- The copies, from the first one that was saved to the last. -/
  copies : List Reader
  deriving DecidableEq, Repr

namespace Desk

/-- The desk at the start of a text, without copies. -/
def ofString (text : String) : Desk := ⟨.ofString text, []⟩

/-- The desk after a command. To go back to a copy that was never saved does nothing. -/
def obey (d : Desk) : Command → Desk
  | .ask request => { d with reader := d.reader.ask request }
  | .save => { d with copies := d.copies ++ [d.reader] }
  | .restore copy => { d with reader := d.copies[copy]?.getD d.reader }

/-- The desk after many commands, from the first one to the last. -/
def obeyAll (d : Desk) (commands : List Command) : Desk := commands.foldl obey d

end Desk

/-! ## The stream -/

section Stream

variable {s : Scanner}

/-- The token that the next call but so many gives. All that can be read of a text is read from this
stream. -/
def stream (s : Scanner) (k : Nat) : Token := (s.after k).scan.1

/-- The iteration does not change what is scanned, whether it is finished or not. -/
theorem scan_withFinished (s : Scanner) (finished : Bool) :
    ({ s with finished } : Scanner).scan = (s.scan.1, { s.scan.2 with finished }) := by
  unfold scan
  obtain ⟨gap, text⟩ := splitGap s.rest
  cases text <;> rfl

/-- Scanning does not change the iteration, so the end of the text may be scanned before it is
yielded. -/
theorem finished_after (s : Scanner) (k : Nat) : (s.after k).finished = s.finished := by
  induction k with
  | zero => rfl
  | succ k ih =>
    have hscan := congrArg (fun out => out.2.finished)
      (scan_withFinished (s.after k) (s.after k).finished)
    exact Eq.trans hscan ih

/-- **The end of the text is a fixed point**: behind it nothing changes any more. -/
theorem scan_of_eof (h : s.scan.1.kind = .eof) : s.scan.2.scan = s.scan := by
  rcases s.scan_cases with ⟨gap, -, hscan⟩ | ⟨gap, c, cs, -, hscan⟩
  · rw [hscan]
    simp [scan, splitGap, splitGapFrom]
  · rw [hscan] at h
    exact absurd h (firstToken_ofChars c cs).kind_ne_eof

/-- Calls add up, so that a scanner may be left and taken up again. -/
theorem after_add (s : Scanner) (k n : Nat) : s.after (k + n) = (s.after k).after n := by
  induction n with
  | zero => rfl
  | succ n ih => exact congrArg (fun s => s.scan.2) ih

/-- What the calls give adds up, too: first tokens, and then those behind them. -/
theorem map_stream_add (s : Scanner) (k n : Nat) :
    (List.range k).map s.stream ++ (List.range n).map (s.after k).stream =
      (List.range (k + n)).map s.stream := by
  rw [List.range_add, List.map_append, List.map_map]
  congr 2
  funext i
  exact congrArg (fun s => s.scan.1) (s.after_add k i).symm

/-- From the end on the stream stands still, on the same token with the same line. -/
theorem stream_add_of_eof {n : Nat} (h : (s.stream n).kind = .eof) (k : Nat) :
    s.stream (n + k) = s.stream n := by
  have hscan : (s.after (n + k)).scan = (s.after n).scan := by
    induction k with
    | zero => rfl
    | succ k ih =>
      have hnext := scan_of_eof (s := s.after (n + k)) (by rw [ih]; exact h)
      exact hnext.trans ih
  exact congrArg Prod.fst hscan

/-- The scanner is left behind the end of the text when its tokens are taken, and its iteration is
finished. -/
theorem snd_drainFrom {n : Nat} (h : ∀ k, (s.stream k).kind = .eof ↔ n ≤ k)
    (taken : Array Token) :
    (s.drainFrom taken).2 = { s.after (n + 1) with finished := true } := by
  induction n generalizing s taken with
  | zero =>
    have heof : s.scan.1.kind = .eof := (h 0).2 (Nat.le_refl 0)
    rw [drainFrom, if_pos heof]
    rfl
  | succ n ih =>
    have hne : ¬ s.scan.1.kind = .eof := fun heof => absurd ((h 0).1 heof) (by omega)
    have htail : ∀ k, (s.scan.2.stream k).kind = .eof ↔ n ≤ k := by
      intro k
      have hk := h (k + 1)
      rwa [stream, after_succ, Nat.succ_le_succ_iff] at hk
    rw [drainFrom, if_neg hne, ih htail, s.after_succ (n + 1)]

/-- The iteration yields the next token. It is finished if that is the end of the text, which is
yielded once. -/
theorem serve_next (h : s.finished = false) :
    s.serve .next =
      (.yielded (some s.scan.1), { s.scan.2 with finished := s.scan.1.kind = .eof }) := by
  rw [serve, next?, h]
  rfl

/-- The tokens up to the end of the text are counted, and the iteration is finished behind them. -/
theorem serve_count (h : s.finished = false) {n : Nat}
    (hcalls : ∀ k, (s.stream k).kind = .eof ↔ n ≤ k) :
    s.serve .count =
      (.counted ((List.range (n + 1)).map s.stream),
        { s.after (n + 1) with finished := true }) := by
  have htokens : (s.drainFrom #[]).1.toList = (List.range (n + 1)).map s.stream :=
    tokens_eq_map hcalls
  rw [serve, drain, h, if_neg Bool.false_ne_true, htokens, snd_drainFrom hcalls]

/-- A finished iteration gives nothing more, and does not move the scanner. -/
theorem serve_of_finished (h : s.finished = true) :
    s.serve .next = (.yielded none, s) ∧ s.serve .count = (.counted [], s) := by
  simp [serve, next?, drain, h]

end Stream

/-! ## Readers -/

namespace Reader

/-- The iteration has handed out the end of the text in some of the answers. -/
def ended (answers : List Answer) : Bool :=
  (answers.flatMap Answer.iterated).any fun token => token.kind = .eof

/-- A reader of a text has read the first so many tokens of its stream. The scanner stands behind
them, and the iteration is finished if it has handed out the end of the text. It yielded nothing
where it was finished already, and something everywhere else. -/
structure Reads (text : String) (r : Reader) (count : Nat) : Prop where
  /-- The scanner stands behind that many tokens. -/
  scanner_eq : r.scanner = { (Scanner.ofString text).after count with finished := ended r.answers }
  /-- The tokens that were taken are the first ones of the stream. -/
  tokens_eq : r.tokens = (List.range count).map (Scanner.ofString text).stream
  /-- The iteration yields nothing exactly if it has handed out the end of the text before. -/
  yields : ∀ before item after, r.answers = before ++ .yielded item :: after →
    (item = none ↔ ended before)

variable {text : String} {r : Reader} {count : Nat}

/-- One more answer may be the one with which the iteration has ended. -/
theorem ended_concat (answers : List Answer) (a : Answer) :
    ended (answers ++ [a]) =
      (ended answers || a.iterated.any fun token => token.kind = .eof) := by
  rw [ended, List.flatMap_append, List.any_append, List.flatMap_singleton]
  rfl

/-- At the start of a text nothing has been read. -/
theorem reads_ofString (text : String) : (Reader.ofString text).Reads text 0 :=
  ⟨rfl, rfl, fun before item after h => by simp [Reader.ofString] at h⟩

/-- A reader reads on with an answer that takes the next tokens of the stream, and leaves the
scanner behind them. -/
theorem Reads.concat (h : r.Reads text count) {a : Answer} {s : Scanner} {n : Nat}
    (hs : s = { (Scanner.ofString text).after (count + n) with
      finished := ended (r.answers ++ [a]) })
    (htokens : a.tokens = (List.range n).map ((Scanner.ofString text).after count).stream)
    (hyields : ∀ item, a = .yielded item → (item = none ↔ ended r.answers)) :
    Reads text ⟨s, r.answers ++ [a]⟩ (count + n) := by
  refine ⟨hs, ?_, fun before item after (heq : r.answers ++ [a] = _) => ?_⟩
  · rw [← map_stream_add, ← htokens, ← h.tokens_eq, tokens, tokens, List.flatMap_append,
      List.flatMap_singleton]
  · rcases List.eq_nil_or_concat after with rfl | ⟨after, last, rfl⟩
    · obtain ⟨rfl, ha⟩ := List.append_inj' heq rfl
      exact hyields item (List.singleton_inj.1 ha)
    · have hinit : r.answers ++ [a] = (before ++ .yielded item :: after) ++ [last] := by
        rw [heq, List.concat_eq_append, List.append_assoc, List.cons_append]
      exact h.yields before item after (List.append_inj' hinit rfl).1

/-- **A request goes on with the stream.**

**Proof sketch.** A call takes the next token of the stream, and so does the iteration unless it is
finished. A count takes all tokens up to the end of the text. A finished iteration takes nothing. -/
theorem Reads.ask (h : r.Reads text count) (request : Request) :
    ∃ count', (r.ask request).Reads text count' := by
  have hone : [((Scanner.ofString text).after count).scan.1] =
      (List.range 1).map ((Scanner.ofString text).after count).stream := rfl
  have hopen (hended : ended r.answers = false) :
      r.scanner = (Scanner.ofString text).after count ∧
        ((Scanner.ofString text).after count).finished = false := by
    have hfinished : ((Scanner.ofString text).after count).finished = false := finished_after _ _
    exact ⟨by rw [h.scanner_eq, hended, ← hfinished], hfinished⟩
  have hclosed (hended : ended r.answers = true) :
      r.scanner = { (Scanner.ofString text).after (count + 0) with finished := true } :=
    h.scanner_eq.trans (by rw [hended]; rfl)
  cases request with
  | scan =>
    have hserve : r.scanner.serve .scan = (.scanned ((Scanner.ofString text).after count).scan.1,
        { ((Scanner.ofString text).after count).scan.2 with finished := ended r.answers }) := by
      rw [serve, h.scanner_eq, scan_withFinished]
    rw [Reader.ask, hserve]
    refine ⟨count + 1, h.concat ?_ hone nofun⟩
    rw [ended_concat]
    simp [Answer.iterated, Scanner.after]
  | next =>
    cases hended : ended r.answers with
    | true =>
      rw [Reader.ask, (serve_of_finished (congrArg finished (hclosed hended))).1]
      refine ⟨count + 0, h.concat ?_ rfl ?_⟩
      · rw [ended_concat, hended, Bool.true_or]
        exact hclosed hended
      · rintro item ⟨⟩
        simp [hended]
    | false =>
      obtain ⟨hscanner, hfinished⟩ := hopen hended
      rw [Reader.ask, hscanner, serve_next hfinished]
      refine ⟨count + 1, h.concat ?_ hone ?_⟩
      · rw [ended_concat, hended]
        simp [Answer.iterated, Scanner.after]
      · rintro item ⟨⟩
        simp [hended]
  | count =>
    cases hended : ended r.answers with
    | true =>
      rw [Reader.ask, (serve_of_finished (congrArg finished (hclosed hended))).2]
      refine ⟨count + 0, h.concat ?_ rfl nofun⟩
      rw [ended_concat, hended, Bool.true_or]
      exact hclosed hended
    | false =>
      obtain ⟨hscanner, hfinished⟩ := hopen hended
      obtain ⟨n, -, hcalls⟩ := ((Scanner.ofString text).after count).exists_calls
      rw [Reader.ask, hscanner, serve_count hfinished hcalls]
      refine ⟨count + (n + 1), h.concat ?_ rfl nofun⟩
      have heof : ended (r.answers ++ [.counted ((List.range (n + 1)).map
          ((Scanner.ofString text).after count).stream)]) = true := by
        rw [ended_concat, hended, Bool.false_or, List.any_eq_true]
        exact ⟨_, List.mem_map_of_mem List.self_mem_range_succ,
          decide_eq_true ((hcalls n).2 (Nat.le_refl n))⟩
      rw [heof, ← after_add]

/-- Some of the answers have handed out the end of the text by iteration if and only if one has. A
single one has to be looked for. -/
theorem ended_iff {answers : List Answer} :
    ended answers ↔ ∃ a ∈ answers, ∃ token ∈ a.iterated, token.kind = .eof := by
  simp [ended, List.any_flatMap, List.any_eq_true]

end Reader

/-! ## Copies -/

namespace Desk

/-- All readers at hand: the one that is asked, and the copies, to which it may go back. -/
def readers (d : Desk) : List Reader := d.reader :: d.copies

variable {text : String} {d : Desk}

/-- After a command, all readers at hand have read the first tokens of the stream.

**Proof sketch.** A copy stands where the reader stood when it was saved, and brings the answers
with it that led there. -/
theorem reads_obey (h : ∀ r ∈ d.readers, ∃ count, r.Reads text count) (command : Command) :
    ∀ r ∈ (d.obey command).readers, ∃ count, r.Reads text count := by
  obtain ⟨hreader, hcopies⟩ := List.forall_mem_cons.1 h
  cases command with
  | ask request =>
    obtain ⟨count, hreads⟩ := hreader
    exact List.forall_mem_cons.2 ⟨hreads.ask request, hcopies⟩
  | save =>
    refine List.forall_mem_cons.2 ⟨hreader, fun r hr => ?_⟩
    rcases List.mem_append.1 hr with hr | hr
    · exact hcopies r hr
    · rw [List.mem_singleton.1 hr]
      exact hreader
  | restore copy =>
    refine List.forall_mem_cons.2 ⟨?_, hcopies⟩
    simp only [obey]
    cases hcopy : d.copies[copy]? with
    | none => exact hreader
    | some r => exact hcopies r (List.mem_of_getElem? hcopy)

/-- After many commands all readers at hand have read the first tokens of the stream, too. -/
theorem reads_obeyAll (h : ∀ r ∈ d.readers, ∃ count, r.Reads text count)
    (commands : List Command) :
    ∀ r ∈ (d.obeyAll commands).readers, ∃ count, r.Reads text count := by
  induction commands generalizing d with
  | nil => exact h
  | cons command commands ih => exact ih (reads_obey h command)

/-- At the start of a text there is only the reader that has read nothing. -/
theorem reads_ofString (text : String) :
    ∀ r ∈ (Desk.ofString text).readers, ∃ count, r.Reads text count := by
  intro r hr
  rw [List.mem_singleton.1 hr]
  exact ⟨0, Reader.reads_ofString text⟩

end Desk

/-! ## All commands -/

/-- The stream is the tokens of the text, and then its end again and again.

**Proof sketch.** Let the call number `n` be the one that reaches the end of the text. The tokens
are the first `n + 1` of the stream. Fewer are a beginning of them, and of more of them the others
repeat the last one. -/
theorem map_stream_range (text : String) :
    ∃ (inner : List Token) (last : Token), tokenize text = inner ++ [last] ∧
      last.kind = .eof ∧ last.lexeme = [] ∧ (∀ token ∈ inner, token.kind ≠ .eof) ∧
      ∀ count,
        (List.range count).map (Scanner.ofString text).stream <+: tokenize text ∨
          ∃ copies, (List.range count).map (Scanner.ofString text).stream =
            tokenize text ++ List.replicate copies last := by
  obtain ⟨n, -, hcalls⟩ := (Scanner.ofString text).exists_calls
  have htokens : tokenize text = (List.range (n + 1)).map (Scanner.ofString text).stream :=
    tokens_eq_map hcalls
  have heof : ((Scanner.ofString text).stream n).kind = .eof := (hcalls n).2 (Nat.le_refl n)
  refine ⟨(List.range n).map (Scanner.ofString text).stream, (Scanner.ofString text).stream n,
    ?_, heof, ?_, fun token htoken => ?_, fun count => ?_⟩
  · rw [htokens, List.range_succ, List.map_append]
    rfl
  · rw [Token.lexeme, heof]
    exact (rest_scan_of_eof heof).1
  · obtain ⟨k, hk, rfl⟩ := List.mem_map.1 htoken
    exact fun hkind => absurd ((hcalls k).1 hkind) (Nat.not_le.2 (List.mem_range.1 hk))
  · rw [htokens]
    -- up to the end of the text the stream is cut short, and beyond it the end is repeated
    rcases Nat.le_total count (n + 1) with hle | hle
    · obtain ⟨more, hmore⟩ := Nat.exists_eq_add_of_le hle
      rw [hmore, ← map_stream_add]
      exact .inl (List.prefix_append _ _)
    · obtain ⟨more, rfl⟩ := Nat.exists_eq_add_of_le hle
      refine .inr ⟨more, ?_⟩
      rw [← map_stream_add, List.append_right_inj, List.eq_replicate_iff]
      refine ⟨by simp, fun token htoken => ?_⟩
      obtain ⟨k, -, rfl⟩ := List.mem_map.1 htoken
      rw [stream, ← after_add, Nat.add_assoc, ← stream, stream_add_of_eof heof]

/-- **One stream of tokens.** Ask a scanner in any way and as often as you like, save copies of it
and go back to them at any time. What was read on the way to where it then stands is a beginning of
the tokens of the text, or all of them and further copies of the last one, the end of the text, with
the same line and nothing to show. And the iteration yields nothing if and only if it has handed out
the end of the text before on this way, by itself or in a count, whatever calls gave in between.

**Proof sketch.** Every reader that comes about, among the copies or not, has read the first so many
tokens of one stream, by induction on the commands. Up to the end of the text the stream is the
tokens of the text, and from there on it stands still. -/
theorem interleaving (text : String) (commands : List Command) :
    let r := ((Desk.ofString text).obeyAll commands).reader
    (∃ (inner : List Token) (last : Token), tokenize text = inner ++ [last] ∧
      last.kind = .eof ∧ last.lexeme = [] ∧ (∀ token ∈ inner, token.kind ≠ .eof) ∧
      (r.tokens <+: tokenize text ∨
        ∃ copies, r.tokens = tokenize text ++ List.replicate copies last)) ∧
    ∀ before item after, r.answers = before ++ .yielded item :: after →
      (item = none ↔ ∃ a ∈ before, ∃ token ∈ a.iterated, token.kind = .eof) := by
  intro r
  obtain ⟨count, hreads⟩ :=
    Desk.reads_obeyAll (Desk.reads_ofString text) commands r List.mem_cons_self
  obtain ⟨inner, last, htokens, hkind, hlexeme, hinner, hstream⟩ := map_stream_range text
  refine ⟨⟨inner, last, htokens, hkind, hlexeme, hinner, ?_⟩, fun before item after heq => ?_⟩
  · rw [hreads.tokens_eq]
    exact hstream count
  · rw [← Reader.ended_iff]
    exact hreads.yields before item after heq

/-- Neither a call that gives the end of the text finishes the iteration, nor a count that was taken
back. -/
example :
    let d := (Desk.ofString "a").obeyAll
      [.ask .scan, .ask .scan, .save, .ask .count, .restore 0, .ask .next, .ask .scan, .ask .next]
    d.reader.answers =
      [.scanned ⟨.identifier, ['a'], 1⟩, .scanned ⟨.eof, [], 1⟩, .yielded (some ⟨.eof, [], 1⟩),
        .scanned ⟨.eof, [], 1⟩, .yielded none] := by
  decide +kernel

end ChunkMachine.Scanner
