import FinSight.Guarantees.Outlines
import FinSight.Ingest.Chunk
import FinSight.Lists.Runs

/-!
# The text of the chunks

* `placed` : the words of a text, each with its page;
* `words_splitToFit` : a line that is split keeps its words;
* `exists_windows` : the windows over a block cover its pieces;
* `covered_sectionChunks` : the chunks of a section cover its pieces, and overlap in blocks over the cap only;
* `IsGroup` : a heading with the lines up to the next one; `groups_of_lines` : every line is the title, a heading, or a line of
  a section;
* `ingestion_covers` : all of this for a document.
-/

namespace FinSight.Ingest

open Scanning Runs

/-! ## Words -/

def placed (t : Text) (page : Int) : List (Text × Int) := (words t).map fun w => (w, page)

def Page.placed (p : Page) : List (Text × Int) := Ingest.placed p.text p.pageNumber

def Line.placed (l : Line) : List (Text × Int) := Ingest.placed l.text l.page

def Piece.placed (p : Piece) : List (Text × Int) := Ingest.placed p.text p.page

theorem words_joinWords (ws : List Text) : words (joinWords ws) = ws.flatMap words := by
  induction ws with
  | nil => rfl
  | cons w ws ih =>
      cases ws with
      | nil => rw [joinWords, List.intercalate_singleton, List.flatMap_cons, List.flatMap_nil, List.append_nil]
      | cons v ws =>
          rw [joinWords, List.intercalate_cons_cons, List.append_assoc,
            words_append_spaces (by decide) (by decide), ← joinWords, ih, ← List.flatMap_cons]

theorem words_joinPieces (pieces : List Piece) : words (joinPieces pieces) = pieces.flatMap fun p => words p.text := by
  have hrest : ∀ (rest : List Piece) (x : Text),
      words (x ++ rest.flatMap fun q => (if q.cont then text " " else text "\n") ++ q.text) =
        words x ++ rest.flatMap fun q => words q.text := by
    intro rest
    induction rest with
    | nil => simp
    | cons q rest ih =>
        intro x
        have hspace : ∀ y, words (x ++ ((if q.cont then text " " else text "\n") ++ y)) = words x ++ words y := by
          intro y
          cases q.cont <;> exact words_append_spaces (by decide) (by decide) x y
        rw [List.flatMap_cons, List.flatMap_cons, List.append_assoc, hspace, ih]
  cases pieces with
  | nil => rfl
  | cons p rest => exact hrest rest p.text

theorem afterSpaces_isSome {t : Text} (h : (afterSpaces t).isSome = true) : t.takeWhile isSpace ≠ [] := by
  unfold afterSpaces at h
  split at h
  · next hspaces => exact hspaces.1
  · cases h

theorem sentenceEnd_some {u : CodeUnit} {t : Text} {p : CodeUnit × Text} {n : Nat}
    (h : sentenceEnd (u :: t) = some (p, n)) :
    p.2 ≠ [] ∧ (∀ v ∈ p.2, isSpace v = true) ∧ p.1 :: p.2 <+: u :: t ∧ (p.1 :: p.2).length = n + 1 := by
  rw [sentenceEnd] at h
  split at h
  · next hend =>
    obtain ⟨rfl, rfl⟩ := Prod.mk.inj (Option.some.inj h)
    refine ⟨afterSpaces_isSome hend.2, fun v hv => List.mem_takeWhile_imp hv, ?_, rfl⟩
    exact List.cons_prefix_cons.mpr ⟨rfl, List.takeWhile_prefix isSpace⟩
  · cases h

theorem words_sentences (t : Text) : (sentences t).flatMap words = words t := by
  refine split_flatMap (g := fun p => p.1 :: p.2)
    (spells_of_start fun u as p n h => (sentenceEnd_some h).2.2) ?_ t
  intro u as p n h x y
  obtain ⟨hne, hrun, -, -⟩ := sentenceEnd_some h
  rw [List.cons_append, List.append_cons, words_append_spaces hne hrun]

section

set_option linter.unusedSectionVars false

variable {R : Type} [LE R] [LT R] [Mul R] [NatCast R] [DecidableLE R] [DecidableLT R]
variable (count : Text → Nat) (lead : Text) (opts : Options R)

theorem words_wordGroups (cap : R) (sentence : Text) :
    (wordGroups count lead cap sentence).flatMap words = words sentence := by
  have hloop : ∀ ws : List Text, let s := ws.foldl (addWord count lead cap) ([], [])
      s.1.flatMap words ++ s.2.flatMap words = ws.flatMap words := by
    refine foldl_induction (motive := fun ws (s : List Text × List Text) => s.1.flatMap words ++ s.2.flatMap words = ws.flatMap words)
      rfl fun ws s word ih => ?_
    rw [List.flatMap_append, ← ih]
    unfold addWord
    split
    · rw [List.flatMap_append, List.flatMap_singleton, words_joinWords, List.flatMap_singleton]
    · rw [List.flatMap_append, List.append_assoc]
  have hwords := hloop (splitSpaces sentence)
  rw [words_splitSpaces] at hwords
  unfold wordGroups
  split
  next out cur hfold =>
  rw [hfold] at hwords
  split
  · rw [List.flatMap_append, List.flatMap_singleton, words_joinWords]
    exact hwords
  · next hcur =>
    rw [not_not] at hcur
    subst hcur
    simpa using hwords

/-- A line that is split keeps its words. -/
theorem words_splitToFit (cap : R) (t : Text) : (splitToFit count lead cap t).flatMap words = words t := by
  rw [splitToFit, List.flatMap_assoc, ← words_sentences t]
  refine List.flatMap_congr fun sentence _ => ?_
  split
  · exact List.flatMap_singleton ..
  · exact words_wordGroups count lead cap sentence

/-! ## Pieces -/

/-- The pieces of one line: its words, on its page, and they rejoin with spaces. -/
structure SplitLine (line : Line) (pieces : List Piece) : Prop where
  words : (pieces.flatMap fun p => words p.text) = words line.text
  page : ∀ p ∈ pieces, p.page = line.page
  first : ∀ p ∈ pieces.head?, p.cont = false
  rest : ∀ p ∈ pieces.tail, p.cont = true

theorem placed_of_split {line : Line} {pieces : List Piece} (h : SplitLine line pieces) :
    pieces.flatMap Piece.placed = line.placed := by
  have hpage : ∀ p ∈ pieces, Piece.placed p = (words p.text).map fun w => (w, line.page) := by
    intro p hp
    rw [Piece.placed, placed, h.page p hp]
  rw [List.flatMap_congr hpage, ← List.map_flatMap, h.words]
  rfl

theorem splitLine_linePieces (cap : R) (line : Line) : SplitLine line (linePieces count lead cap line) := by
  unfold linePieces
  split
  · refine ⟨List.flatMap_singleton .., fun p hp => ?_, fun p hp => ?_, by rintro p ⟨⟩⟩
    · rw [List.mem_singleton.mp hp]
      rfl
    · rw [← Option.some.inj hp]
      rfl
  · have hwords := words_splitToFit count lead cap line.text
    cases hsplit : splitToFit count lead cap line.text with
    | nil =>
        rw [hsplit] at hwords
        exact ⟨hwords, by rintro p ⟨⟩, by rintro p ⟨⟩, by rintro p ⟨⟩⟩
    | cons t rest =>
        rw [hsplit] at hwords
        have hpieces : (t :: rest).mapIdx (fun i t => Piece.mk t line.page (decide (0 < i))) =
            ⟨t, line.page, false⟩ :: rest.map fun t => ⟨t, line.page, true⟩ := by
          rw [List.mapIdx_cons]
          refine congrArg _ (List.ext_getElem? fun i => ?_)
          simp [List.getElem?_mapIdx]
        rw [hpieces]
        refine ⟨?_, fun p hp => ?_, fun p hp => ?_, fun p hp => ?_⟩
        · rw [List.flatMap_cons, List.flatMap_map]
          exact hwords
        · rcases List.mem_cons.mp hp with rfl | hp
          · rfl
          · obtain ⟨v, -, rfl⟩ := List.mem_map.mp hp
            rfl
        · rw [← Option.some.inj hp]
        · obtain ⟨v, -, rfl⟩ := List.mem_map.mp hp
          rfl

/-! ## Windows -/

theorem exists_tailFrom (budget : R) (before : List Piece) (acc : Nat) (tail : List Piece) :
    ∃ k, k ≤ before.length ∧ tailFrom count budget before acc tail = (before.reverse ++ tail).drop k := by
  induction before generalizing acc tail with
  | nil => exact ⟨0, Nat.le_refl 0, rfl⟩
  | cons p before ih =>
      unfold tailFrom
      split
      · obtain ⟨k, hk, hdrop⟩ := ih (acc + count p.text) (p :: tail)
        refine ⟨k, Nat.le_succ_of_le hk, ?_⟩
        rw [hdrop, List.reverse_cons, List.append_assoc, List.singleton_append]
      · refine ⟨(p :: before).length, Nat.le_refl _, ?_⟩
        rw [List.drop_left' (List.length_reverse)]

theorem exists_shiftWhile (cap : R) (p : Piece) (win : List Piece) :
    ∃ k, k ≤ win.length ∧ shiftWhile count lead cap p win = win.drop k := by
  induction win with
  | nil => exact ⟨0, Nat.le_refl 0, rfl⟩
  | cons w win ih =>
      unfold shiftWhile
      split
      · obtain ⟨k, hk, hdrop⟩ := ih
        exact ⟨k + 1, Nat.succ_le_succ hk, hdrop⟩
      · exact ⟨0, Nat.zero_le _, rfl⟩

/-- What the next window starts with: the end of the last one, without its first piece. -/
theorem exists_overlap (p : Piece) {win : List Piece} (hwin : win ≠ []) :
    ∃ k, 1 ≤ k ∧ k ≤ win.length ∧
      shiftWhile count lead opts.cap p (overlapTail count (opts.overlap * opts.target) win) = win.drop k := by
  obtain ⟨w, rest, rfl⟩ := List.exists_cons_of_ne_nil hwin
  obtain ⟨k, hk, htail⟩ := exists_tailFrom count (opts.overlap * opts.target) rest.reverse 0 []
  obtain ⟨j, hj, hshift⟩ := exists_shiftWhile count lead opts.cap p (rest.drop k)
  rw [List.length_reverse] at hk
  rw [List.length_drop] at hj
  rw [List.reverse_reverse, List.append_nil] at htail
  refine ⟨k + j + 1, by omega, by rw [List.length_cons]; omega, ?_⟩
  rw [overlapTail, List.tail_cons, htail, hshift, List.drop_drop, List.drop_succ_cons]

/-- After the pieces `xs`: the closed windows, and the open one, which goes up to the last piece. -/
def WindowsAt (xs : List Piece) (s : List (List Piece) × List Piece) : Prop :=
  (xs = [] ∧ s = ([], [])) ∨
    ∃ runs start, s.1 = runs.map (Run.slice xs) ∧ s.2 = xs.drop start ∧
      Covers (fun _ _ => True) xs.length (runs ++ [⟨start, xs.length⟩])

theorem windowsAt (pieces : List Piece) : WindowsAt pieces (pieces.foldl (addPiece count lead opts) ([], [])) := by
  refine foldl_induction (Or.inl ⟨rfl, rfl⟩) (fun xs s p hs => ?_) pieces
  right
  rcases hs with ⟨rfl, rfl⟩ | ⟨runs, start, hout, hwin, hcovers⟩
  · refine ⟨[], 0, ?_, ?_, Covers.single Nat.one_pos⟩
    · simp [addPiece]
    · simp [addPiece]
  · have hstart : start < xs.length :=
      hcovers.proper ⟨start, xs.length⟩ (List.mem_append_right _ (List.mem_singleton_self _))
    have hkept : ∀ rs : List Run, (∀ r ∈ rs, r.stop ≤ xs.length) →
        rs.map (Run.slice (xs ++ [p])) = rs.map (Run.slice xs) := by
      intro rs hrs
      exact List.map_congr_left fun r hr => Run.slice_append_left (hrs r hr) [p]
    have hruns : ∀ r ∈ runs, r.stop ≤ xs.length := fun r hr => hcovers.stop_le r (List.mem_append_left _ hr)
    have hne : s.2 ≠ [] := by
      rw [hwin, ← List.length_pos_iff, List.length_drop]
      omega
    unfold addPiece
    split
    · obtain ⟨k, hpos, hk, hnext⟩ := exists_overlap count lead opts p hne
      rw [hwin, List.length_drop] at hk
      refine ⟨runs ++ [⟨start, xs.length⟩], start + k, ?_, ?_, ?_⟩
      · rw [hkept _ hcovers.stop_le, List.map_append, ← hout]
        show s.1 ++ [s.2] = s.1 ++ [(xs.take xs.length).drop start]
        rw [hwin, List.take_length]
      · show shiftWhile count lead opts.cap p _ ++ [p] = _
        rw [hnext, hwin, List.drop_drop, List.drop_append_of_le_length (by omega)]
      · rw [List.length_append]
        exact hcovers.restart (by omega) (by omega) fun _ => trivial
    · refine ⟨runs, start, ?_, ?_, ?_⟩
      · rw [hkept _ hruns]
        exact hout
      · show s.2 ++ [p] = _
        rw [hwin, List.drop_append_of_le_length hstart.le]
      · rw [List.length_append]
        exact hcovers.extend fun _ _ _ => trivial

/-- **The windows cover the pieces.** -/
theorem exists_windows (pieces : List Piece) :
    ∃ runs, windows count lead opts pieces = runs.map (Run.slice pieces) ∧
      Covers (fun _ _ => True) pieces.length runs := by
  unfold windows
  split
  next out win hfold =>
  have hat := windowsAt count lead opts pieces
  rw [hfold] at hat
  rcases hat with ⟨rfl, hnil⟩ | ⟨runs, start, hout, hwin, hcovers⟩
  · obtain ⟨rfl, rfl⟩ := Prod.mk.inj hnil
    exact ⟨[], rfl, Covers.nil⟩
  · have hstart : start < pieces.length :=
      hcovers.proper ⟨start, pieces.length⟩ (List.mem_append_right _ (List.mem_singleton_self _))
    have hne : win ≠ [] := by
      rw [show win = pieces.drop start from hwin, ← List.length_pos_iff, List.length_drop]
      omega
    refine ⟨runs ++ [⟨start, pieces.length⟩], ?_, hcovers⟩
    rw [if_pos hne, List.map_append, ← show out = _ from hout]
    show out ++ [win] = out ++ [(pieces.take pieces.length).drop start]
    rw [List.take_length, show win = _ from hwin]

/-! ## Sections -/

/-- The pieces of a block, which are split where the block is over the cap. -/
def PartOf (block : Block) (part : Bool × List Piece) : Prop :=
  if part.1 then
    ¬ ((count (lead ++ joinPieces (block.lines.map Line.piece)) : R) ≤ opts.cap) ∧
      ∃ split : List (List Piece), List.Forall₂ SplitLine block.lines split ∧ part.2 = split.flatten
  else part.2 = block.lines.map Line.piece

/-- Two runs in one block over the cap. -/
def InOneBlock (parts : List (Bool × List Piece)) (r r' : Run) : Prop :=
  ∃ before pieces after, parts = before ++ (true, pieces) :: after ∧
    (before.flatMap Prod.snd).length ≤ r.start ∧ r'.stop ≤ (before.flatMap Prod.snd).length + pieces.length

theorem InOneBlock.snoc {parts : List (Bool × List Piece)} {r r' : Run} (h : InOneBlock parts r r')
    (part : Bool × List Piece) : InOneBlock (parts ++ [part]) r r' := by
  obtain ⟨before, pieces, after, rfl, hstart, hstop⟩ := h
  exact ⟨before, pieces, after ++ [part], by rw [List.append_assoc, List.cons_append], hstart, hstop⟩

/-- What a chunk says of a run of pieces. -/
structure ChunkOf (heading : Text) (pieces : List Piece) (c : Chunk) : Prop where
  heading : c.sectionHeading = heading
  content : c.content = lead ++ joinPieces pieces
  words : words (joinPieces pieces) = pieces.flatMap fun p => words p.text
  tokenCount : c.tokenCount = count c.content
  pageStart : IsLeast {n | ∃ p ∈ pieces, p.page = n} c.pageStart
  pageEnd : IsGreatest {n | ∃ p ∈ pieces, p.page = n} c.pageEnd

theorem chunkOf_toChunk (heading : Text) {pieces : List Piece} (hne : pieces ≠ []) :
    ChunkOf count lead heading pieces (toChunk count lead heading pieces) where
  heading := rfl
  content := rfl
  words := words_joinPieces pieces
  tokenCount := rfl
  pageStart := by
    obtain ⟨n, hn⟩ := Option.isSome_iff_exists.mp (List.isSome_min?_of_ne_nil (l := pieces.map Piece.page) (by simpa using hne))
    obtain ⟨hmem, hle⟩ := List.min?_eq_some_iff.mp hn
    show IsLeast _ ((pieces.map Piece.page).min?.getD 0)
    rw [hn]
    refine ⟨List.mem_map.mp hmem, ?_⟩
    rintro m ⟨p, hp, rfl⟩
    exact hle _ (List.mem_map_of_mem hp)
  pageEnd := by
    obtain ⟨n, hn⟩ := Option.isSome_iff_exists.mp (List.isSome_max?_of_ne_nil (l := pieces.map Piece.page) (by simpa using hne))
    obtain ⟨hmem, hle⟩ := List.max?_eq_some_iff.mp hn
    show IsGreatest _ ((pieces.map Piece.page).max?.getD 0)
    rw [hn]
    refine ⟨List.mem_map.mp hmem, ?_⟩
    rintro m ⟨p, hp, rfl⟩
    exact hle _ (List.mem_map_of_mem hp)

/-- The chunks cover the pieces `done` of the blocks, and the other pieces are not in one yet. -/
structure BlocksAt (heading : Text) (blocks : List Block) (s : List Chunk × List Piece)
    (parts : List (Bool × List Piece)) (done : List Piece) (runs : List Run) : Prop where
  forBlocks : List.Forall₂ (PartOf count lead opts) blocks parts
  pieces : parts.flatMap Prod.snd = done ++ s.2
  chunks : s.1 = runs.map fun r => toChunk count lead heading (r.slice done)
  covers : Covers (InOneBlock parts) done.length runs

variable {heading : Text} {blocks : List Block} {s : List Chunk × List Piece} {parts : List (Bool × List Piece)}
  {done : List Piece} {runs : List Run}

/-- Chunks after the others. -/
theorem BlocksAt.append (h : BlocksAt count lead opts heading blocks s parts done runs) {P : Run → Run → Prop}
    {pieces : List Piece} {runs' : List Run} (hcovers : Covers P pieces.length runs')
    {parts' : List (Bool × List Piece)} (hold : ∀ r r', InOneBlock parts r r' → InOneBlock parts' r r')
    (hnew : ∀ r ∈ runs', ∀ r' ∈ runs', P r r' → InOneBlock parts' (r.shift done.length) (r'.shift done.length)) :
    s.1 ++ runs'.map (fun r => toChunk count lead heading (r.slice pieces)) =
        (runs ++ runs'.map (Run.shift done.length)).map (fun r => toChunk count lead heading (r.slice (done ++ pieces))) ∧
      Covers (InOneBlock parts') (done ++ pieces).length (runs ++ runs'.map (Run.shift done.length)) := by
  constructor
  · rw [List.map_append, List.map_map, h.chunks]
    refine congrArg₂ (· ++ ·) (List.map_congr_left fun r hr => ?_) (List.map_congr_left fun r _ => ?_)
    · rw [Run.slice_append_left (h.covers.stop_le r hr)]
    · rw [Function.comp_apply, Run.slice_shift]
  · rw [List.length_append]
    exact h.covers.append hcovers (fun r _ r' _ => hold r r') hnew

/-- With the pieces that are not in a chunk as one more. -/
theorem BlocksAt.flush (h : BlocksAt count lead opts heading blocks s parts done runs) :
    ∃ runs', BlocksAt count lead opts heading blocks (flush count lead heading s, []) parts (done ++ s.2) runs' := by
  by_cases hnil : s.2 = []
  · refine ⟨runs, h.forBlocks, ?_, ?_, ?_⟩
    · rw [h.pieces, List.append_nil]
    · rw [Ingest.flush, if_neg (not_not.mpr hnil), hnil, List.append_nil]
      exact h.chunks
    · rw [hnil, List.append_nil]
      exact h.covers
  · have hpos : 0 < s.2.length := List.length_pos_iff.mpr hnil
    obtain ⟨hchunks, hcovers⟩ := h.append count lead opts (Covers.single (P := fun _ _ => False) hpos)
      (fun _ _ => id) (by rintro r - r' - ⟨⟩)
    refine ⟨_, h.forBlocks, ?_, ?_, hcovers⟩
    · rw [h.pieces, List.append_nil]
    · rw [Ingest.flush, if_pos hnil, ← hchunks, List.map_singleton, Run.slice_all]

theorem BlocksAt.addBlock (h : BlocksAt count lead opts heading blocks s parts done runs) (block : Block) :
    ∃ parts' done' runs', BlocksAt count lead opts heading (blocks ++ [block])
      (addBlock count lead opts heading s block) parts' done' runs' := by
  have hwhole : PartOf count lead opts block (false, block.lines.map Line.piece) := rfl
  have hmono : ∀ part r r', InOneBlock parts r r' → InOneBlock (parts ++ [part]) r r' := fun part _ _ hone => hone.snoc part
  unfold Ingest.addBlock
  dsimp only
  split
  · refine ⟨parts ++ [(false, block.lines.map Line.piece)], done, runs, ?_, ?_, h.chunks, ?_⟩
    · exact List.rel_append h.forBlocks (List.Forall₂.cons hwhole List.Forall₂.nil)
    · rw [List.flatMap_append, List.flatMap_singleton, h.pieces, List.append_assoc]
    · exact h.covers.mono fun r _ r' _ => hmono _ r r'
  · obtain ⟨runs', hflushed⟩ := h.flush count lead opts
    split
    · refine ⟨parts ++ [(false, block.lines.map Line.piece)], done ++ s.2, runs', ?_, ?_, hflushed.chunks, ?_⟩
      · exact List.rel_append h.forBlocks (List.Forall₂.cons hwhole List.Forall₂.nil)
      · rw [List.flatMap_append, List.flatMap_singleton, h.pieces]
      · exact hflushed.covers.mono fun r _ r' _ => hmono _ r r'
    · next hover =>
      generalize hpieces : toPieces count lead opts.cap block.lines = pieces
      obtain ⟨wins, hwindows, hcovers⟩ := exists_windows count lead opts pieces
      have hlength : (parts.flatMap Prod.snd).length = (done ++ s.2).length := by rw [h.pieces]
      obtain ⟨hchunks, hcovers'⟩ := hflushed.append count lead opts hcovers (hmono (true, pieces)) fun r hr r' hr' _ =>
        ⟨parts, pieces, [], rfl, by rw [hlength]; exact Nat.le_add_right _ _,
          by rw [hlength]; exact Nat.add_le_add_left (hcovers.stop_le r' hr') _⟩
      refine ⟨parts ++ [(true, pieces)], done ++ s.2 ++ pieces, _, ?_, ?_, ?_, hcovers'⟩
      · refine List.rel_append h.forBlocks (List.Forall₂.cons ⟨hover, ?_⟩ List.Forall₂.nil)
        refine ⟨block.lines.map (linePieces count lead opts.cap), ?_, ?_⟩
        · exact List.forall₂_map_right_iff.mpr (List.forall₂_same.mpr fun line _ => splitLine_linePieces count lead _ line)
        · rw [← hpieces, toPieces, List.flatMap_def]
      · rw [List.flatMap_append, List.flatMap_singleton, h.pieces, List.append_nil]
      · rw [← hchunks, hwindows, List.map_map]
        rfl

/-- **The chunks of a section cover its pieces**, and two that overlap are in one block over the cap. -/
theorem covered_sectionChunks (heading : Text) (blocks : List Block) :
    ∃ parts runs, List.Forall₂ (PartOf count lead opts) blocks parts ∧
      sectionChunks count lead opts heading blocks =
        runs.map (fun r => toChunk count lead heading (r.slice (parts.flatMap Prod.snd))) ∧
      Covers (InOneBlock parts) (parts.flatMap Prod.snd).length runs := by
  have hloop : ∃ parts done runs, BlocksAt count lead opts heading blocks
      (blocks.foldl (Ingest.addBlock count lead opts heading) ([], [])) parts done runs := by
    refine foldl_induction (motive := fun blocks s => ∃ parts done runs,
      BlocksAt count lead opts heading blocks s parts done runs) ?_ (fun blocks s block ih => ?_) blocks
    · exact ⟨[], [], [], List.Forall₂.nil, rfl, rfl, Covers.nil⟩
    · obtain ⟨parts, done, runs, h⟩ := ih
      exact h.addBlock count lead opts block
  obtain ⟨parts, done, runs, h⟩ := hloop
  obtain ⟨runs', h'⟩ := h.flush count lead opts
  have hpieces := h'.pieces
  rw [List.append_nil] at hpieces
  refine ⟨parts, runs', h.forBlocks, ?_, ?_⟩
  · rw [hpieces]
    exact h'.chunks
  · rw [hpieces]
    exact h'.covers

end

/-! ## Lines -/

theorem words_intercalate {u : CodeUnit} (hu : isSpace u = true) (ls : List Text) :
    words ([u].intercalate ls) = ls.flatMap words := by
  induction ls with
  | nil => rfl
  | cons l ls ih =>
      cases ls with
      | nil => simp
      | cons l' ls =>
          rw [List.intercalate_cons_cons, List.append_assoc, List.singleton_append, words_append_space l hu, ih]
          rfl

/-- Lines keep the words of their page. -/
theorem placed_lines (page : Int) (ts : List Text) :
    (ts.filterMap fun t => if t = [] then none else some (Line.mk t page)).flatMap Line.placed =
      (ts.flatMap words).map fun w => (w, page) := by
  induction ts with
  | nil => rfl
  | cons t ts ih =>
      rw [List.flatMap_cons, List.map_append, ← ih]
      by_cases ht : t = []
      · subst ht
        rfl
      · simp only [List.filterMap_cons, if_neg ht, List.flatMap_cons]
        rfl

theorem placed_toLines (pages : List Page) : (toLines pages).flatMap Line.placed = pages.flatMap Page.placed := by
  unfold toLines
  rw [List.flatMap_assoc]
  refine List.flatMap_congr fun p _ => ?_
  have htrim : (p.text.splitOn (unit '\n')).flatMap (fun t => words (trim t)) = words p.text := by
    rw [List.flatMap_congr fun t _ => words_trim t, ← words_intercalate (u := unit '\n') (by decide),
      List.intercalate_splitOn]
  rw [placed_lines, List.flatMap_map, htrim]
  rfl

/-- The lines of the blocks of a section. -/
def Section.lines (s : Section) : List Line := s.blocks.flatMap Block.lines

/-- A heading, or none, and the lines up to the next one. -/
abbrev Group := Option Line × List Line

def Group.all (g : Group) : List Line := g.1.toList ++ g.2

/-- The first group has no heading, and each other has the one that is next. -/
def Opens : Nat → Option Line → Prop
  | 0, heading => heading = none
  | k + 1, heading => ∃ line, heading = some line ∧ NextHeading k line.text

/-- Group number `k`: no line after its heading is the next one. -/
structure IsGroup (k : Nat) (g : Group) : Prop where
  opens : Opens k g.1
  lines : ∀ line ∈ g.2, ¬ NextHeading k line.text

/-- The section of a group. -/
structure GroupOf (g : Group) (s : Section) : Prop where
  lines : s.lines = g.2
  heading : s.heading = (g.1.map Line.text).getD (text "Preamble")

/-- The lines that are parsed: the groups of the closed sections, and that of the open one. -/
def LinesAt (lines : List Line) (s : ParseState) : Prop :=
  ∃ (groups : List Group) (group : Group), lines = (groups ++ [group]).flatMap Group.all ∧
    (∀ k g, (groups ++ [group])[k]? = some g → IsGroup k g) ∧ List.Forall₂ GroupOf groups s.sections ∧
    GroupOf group s.current ∧ s.number = groups.length

theorem opensSection_eq_some {s : ParseState} {line : Line} {n : Nat} (h : opensSection s line = some n) :
    n = s.number + 1 ∧ NextHeading s.number line.text := by
  obtain ⟨x, hx, hopens⟩ := Option.bind_eq_some_iff.mp h
  obtain ⟨hnext, hn⟩ := Option.ite_none_right_eq_some.mp hopens
  exact ⟨(Option.some.inj hn).symm.trans hnext.1, x, hx, hnext⟩

theorem not_nextHeading {s : ParseState} {line : Line} (h : opensSection s line = none) : ¬ NextHeading s.number line.text := by
  rintro ⟨⟨number, title⟩, hx, hnext⟩
  have hnone : (if decimalValue number = s.number + 1 ∧ looksLikeSectionTitle title then some (decimalValue number)
      else none) = none := Option.bind_eq_none_iff.mp h _ hx
  rw [if_pos hnext] at hnone
  cases hnone

/-- The last group changes, or one comes. -/
theorem isGroup_concat {groups : List Group} {group : Group} :
    (∀ k g, (groups ++ [group])[k]? = some g → IsGroup k g) ↔
      (∀ k g, groups[k]? = some g → IsGroup k g) ∧ IsGroup groups.length group := by
  constructor
  · intro h
    refine ⟨fun k g hget => h k g ?_, h groups.length group (by simp)⟩
    rw [List.getElem?_append_left (List.getElem?_eq_some_iff.mp hget).1, hget]
  · rintro ⟨hbefore, hlast⟩ k g hget
    rcases Nat.lt_trichotomy k groups.length with hlt | rfl | hgt
    · rw [List.getElem?_append_left hlt] at hget
      exact hbefore k g hget
    · rw [List.getElem?_concat_length] at hget
      exact Option.some.inj hget ▸ hlast
    · rw [List.getElem?_eq_none (by rw [List.length_append, List.length_singleton]; omega)] at hget
      cases hget

theorem LinesAt.parseLine {lines : List Line} {s : ParseState} (h : LinesAt lines s) (line : Line) :
    LinesAt (lines ++ [line]) (parseLine s line) := by
  obtain ⟨groups, group, rfl, hall, hgroups, hgroup, hnumber⟩ := h
  unfold Ingest.parseLine
  split
  · next number hopens =>
    obtain ⟨rfl, hnext⟩ := opensSection_eq_some hopens
    rw [hnumber] at hnext
    have hlength : (groups ++ [group]).length = groups.length + 1 := List.length_append
    refine ⟨groups ++ [group], (some line, []), ?_, isGroup_concat.mpr ⟨hall, ?_⟩, ?_, ⟨rfl, rfl⟩, ?_⟩
    · simp [Group.all]
    · rw [hlength]
      exact ⟨⟨line, rfl, hnext⟩, fun l hl => absurd hl List.not_mem_nil⟩
    · exact List.rel_append hgroups (List.Forall₂.cons hgroup List.Forall₂.nil)
    · rw [hlength, ← hnumber]
  · next hopens =>
    have hlines : (groups ++ [group]).flatMap Group.all ++ [line] =
        (groups ++ [(group.1, group.2 ++ [line])]).flatMap Group.all := by
      simp [Group.all]
    obtain ⟨hbefore, hlast⟩ := isGroup_concat.mp hall
    have hnot := not_nextHeading hopens
    rw [hnumber] at hnot
    have hlast' : IsGroup groups.length (group.1, group.2 ++ [line]) :=
      ⟨hlast.opens, List.forall_mem_append.mpr ⟨hlast.lines, List.forall_mem_singleton.mpr hnot⟩⟩
    split
    · refine ⟨groups, (group.1, group.2 ++ [line]), hlines, isGroup_concat.mpr ⟨hbefore, hlast'⟩, hgroups,
        ⟨?_, hgroup.heading⟩, hnumber⟩
      rw [← hgroup.lines]
      simp [Section.lines, ParseState.current]
    · refine ⟨groups, (group.1, group.2 ++ [line]), hlines, isGroup_concat.mpr ⟨hbefore, hlast'⟩, hgroups,
        ⟨?_, hgroup.heading⟩, hnumber⟩
      rw [← hgroup.lines]
      simp [Section.lines, ParseState.current]

theorem flatMap_kept (blocks : List Block) :
    (blocks.filter fun b => b.lines ≠ []).flatMap Block.lines = blocks.flatMap Block.lines := by
  induction blocks with
  | nil => rfl
  | cons b blocks ih =>
      by_cases hb : b.lines = []
      · rw [List.filter_cons_of_neg (by simpa using hb), List.flatMap_cons, hb, List.nil_append, ih]
      · rw [List.filter_cons_of_pos (by simpa using hb), List.flatMap_cons, List.flatMap_cons, ih]

/-- The sections that are kept are those with lines, and they keep them. -/
theorem groups_kept {groups : List Group} {sections : List Section}
    (h : List.Forall₂ GroupOf groups sections) :
    List.Forall₂ GroupOf (groups.filter fun g => g.2 ≠ []) (keptSections sections) := by
  induction h with
  | nil => exact List.Forall₂.nil
  | @cons group s groups sections hgroup _ ih =>
      have hlines := flatMap_kept s.blocks
      by_cases hempty : group.2 = []
      · have hnone : (s.blocks.filter fun b => b.lines ≠ []) = [] := by
          rw [List.filter_eq_nil_iff]
          intro b hb
          have hnil : s.blocks.flatMap Block.lines = [] := hgroup.lines.trans hempty
          simpa using List.flatMap_eq_nil_iff.mp hnil b hb
        rw [List.filter_cons_of_neg (by simpa using hempty), keptSections, List.map_cons,
          List.filter_cons_of_neg (by simpa using hnone)]
        exact ih
      · have hsome : (s.blocks.filter fun b => b.lines ≠ []) ≠ [] := by
          intro hnone
          rw [hnone] at hlines
          exact hempty (hgroup.lines.symm.trans hlines.symm)
        rw [List.filter_cons_of_pos (by simpa using hempty), keptSections, List.map_cons,
          List.filter_cons_of_pos (by simpa using hsome)]
        exact List.Forall₂.cons ⟨hlines.trans hgroup.lines, hgroup.heading⟩ ih

/-- **Every line is the title, a heading, or a line of a section**, and no section with lines is dropped. -/
theorem groups_of_lines (pages : List Page) :
    ∃ groups : List Group,
      let title := (toLines pages).head?.filter fun line => (sectionRe line.text).isNone
      toLines pages = title.toList ++ groups.flatMap Group.all ∧ (parseStructure pages).title = title.map Line.text ∧
        (∀ k g, groups[k]? = some g → IsGroup k g) ∧
        List.Forall₂ GroupOf (groups.filter fun g => g.2 ≠ []) (parseStructure pages).sections := by
  generalize htaken : takeTitle (toLines pages) = taken
  have htitle : (toLines pages).head?.filter (fun line => (sectionRe line.text).isNone) = taken.1 ∧
      toLines pages = taken.1.toList ++ taken.2 := by
    rw [← htaken]
    cases toLines pages with
    | nil => exact ⟨rfl, rfl⟩
    | cons line rest =>
        rw [List.head?_cons, takeTitle, Option.filter_some]
        cases sectionRe line.text <;> exact ⟨rfl, rfl⟩
  have hparsed : LinesAt taken.2 (taken.2.foldl parseLine .start) := by
    refine foldl_induction (motive := LinesAt) ?_ (fun _ _ line h => h.parseLine line) taken.2
    have hfirst : IsGroup 0 (none, []) := ⟨rfl, fun l hl => absurd hl List.not_mem_nil⟩
    exact ⟨[], (none, []), rfl, isGroup_concat.mpr ⟨fun k g hget => absurd (List.mem_of_getElem? hget) List.not_mem_nil, hfirst⟩,
      List.Forall₂.nil, ⟨rfl, rfl⟩, rfl⟩
  obtain ⟨groups, group, hgrouped, hall, hgroups, hgroup, -⟩ := hparsed
  refine ⟨groups ++ [group], ?_⟩
  dsimp only
  rw [htitle.1, ← hgrouped, parseStructure, htaken]
  exact ⟨htitle.2, rfl, hall, groups_kept (List.rel_append hgroups (List.Forall₂.cons hgroup List.Forall₂.nil))⟩

/-! ## Documents -/

/-- The chunks of a section: each is a run of its pieces, the runs cover them, and the pieces have the words of its lines, on
their pages. Runs that overlap are in one block over the cap. -/
def SectionCovered {R : Type} [LE R] [NatCast R] (count : Text → Nat) (title : Text) (opts : Options R)
    (s : Section) (chunks : List Chunk) : Prop :=
  ∃ (parts : List (Bool × List Piece)) (runs : List Run),
    List.Forall₂ (PartOf count (sectionLead title s.heading) opts) s.blocks parts ∧
      (parts.flatMap Prod.snd).flatMap Piece.placed = s.lines.flatMap Line.placed ∧
      List.Forall₂ (fun r c => ChunkOf count (sectionLead title s.heading) s.heading (r.slice (parts.flatMap Prod.snd)) c)
        runs chunks ∧
      Covers (InOneBlock parts) (parts.flatMap Prod.snd).length runs

theorem placed_of_lines {lines : List Line} {split : List (List Piece)} (h : List.Forall₂ SplitLine lines split) :
    split.flatten.flatMap Piece.placed = lines.flatMap Line.placed := by
  induction h with
  | nil => rfl
  | cons hline _ ih => rw [List.flatten_cons, List.flatMap_append, List.flatMap_cons, placed_of_split hline, ih]

theorem placed_of_parts {R : Type} [LE R] [NatCast R] {count : Text → Nat} {lead : Text} {opts : Options R}
    {blocks : List Block} {parts : List (Bool × List Piece)} (h : List.Forall₂ (PartOf count lead opts) blocks parts) :
    (parts.flatMap Prod.snd).flatMap Piece.placed = (blocks.flatMap Block.lines).flatMap Line.placed := by
  induction h with
  | nil => rfl
  | @cons block part blocks parts hpart _ ih =>
      rw [List.flatMap_cons, List.flatMap_cons, List.flatMap_append, List.flatMap_append, ih]
      congr 1
      unfold PartOf at hpart
      split at hpart
      · obtain ⟨-, split, hsplit, hpieces⟩ := hpart
        rw [hpieces, placed_of_lines hsplit]
      · rw [hpart, List.flatMap_map]
        rfl

theorem sectionCovered {R : Type} [LE R] [LT R] [Mul R] [NatCast R] [DecidableLE R] [DecidableLT R]
    (count : Text → Nat) (title : Text) (opts : Options R) (s : Section) :
    SectionCovered count title opts s
      (sectionChunks count (sectionLead title s.heading) opts s.heading s.blocks) := by
  obtain ⟨parts, runs, hparts, hchunks, hcovers⟩ :=
    covered_sectionChunks count (sectionLead title s.heading) opts s.heading s.blocks
  refine ⟨parts, runs, hparts, placed_of_parts hparts, ?_, hcovers⟩
  rw [hchunks]
  refine List.forall₂_map_right_iff.mpr (List.forall₂_same.mpr fun r hr => chunkOf_toChunk _ _ _ ?_)
  exact Run.slice_ne_nil (hcovers.proper r hr) (hcovers.stop_le r hr)

theorem map_snd_chunkDocument {R : Type} [LE R] [LT R] [Mul R] [NatCast R] [DecidableLE R] [DecidableLT R]
    (doc : Structure) (countTokens : Text → Nat) (fallbackTitle : Text) (opts : Options R) :
    (chunkDocument doc countTokens fallbackTitle opts).map Prod.snd = doc.sections.flatMap fun s =>
      sectionChunks countTokens (sectionLead (doc.title.getD fallbackTitle) s.heading) opts s.heading s.blocks := by
  rw [chunkDocument, List.map_map]
  exact List.zipIdx_map_fst 0 _

/-- **Ingestion loses no text.** The lines have the words of the pages; every line is the title, a heading, or a line of a
section that is kept; the chunks of each section cover the words of its lines, and they are numbered in order. -/
theorem ingestion_covers {R : Type} [LE R] [LT R] [Mul R] [NatCast R] [DecidableLE R] [DecidableLT R]
    (pages : List Page) (countTokens : Text → Nat) (fallbackTitle : Text) (opts : Options R) :
    let doc := parseStructure pages
    let chunks := chunkDocument doc countTokens fallbackTitle opts
    let title := (toLines pages).head?.filter fun line => (sectionRe line.text).isNone
    (toLines pages).flatMap Line.placed = pages.flatMap Page.placed ∧
    ∃ (groups : List Group) (bySection : List (List Chunk)),
      toLines pages = title.toList ++ groups.flatMap Group.all ∧
        doc.title = title.map Line.text ∧
        (∀ k g, groups[k]? = some g → IsGroup k g) ∧
        List.Forall₂ GroupOf (groups.filter fun g => g.2 ≠ []) doc.sections ∧
        List.Forall₂ (SectionCovered countTokens (doc.title.getD fallbackTitle) opts) doc.sections bySection ∧
        chunks.map Prod.snd = bySection.flatten ∧
        chunks.map Prod.fst = List.range chunks.length := by
  obtain ⟨groups, hlines, htitle, hall, hgroups⟩ := groups_of_lines pages
  generalize parseStructure pages = doc at htitle hgroups
  refine ⟨placed_toLines pages, groups, doc.sections.map fun s => sectionChunks countTokens
    (sectionLead (doc.title.getD fallbackTitle) s.heading) opts s.heading s.blocks, hlines, htitle, hall, hgroups, ?_, ?_, ?_⟩
  · exact List.forall₂_map_right_iff.mpr (List.forall₂_same.mpr fun s _ => sectionCovered countTokens _ opts s)
  · rw [map_snd_chunkDocument, List.flatMap_def]
  · rw [chunkDocument, List.map_map, List.length_map, List.length_zipIdx, List.range_eq_range']
    exact List.zipIdx_map_snd 0 _

end FinSight.Ingest
