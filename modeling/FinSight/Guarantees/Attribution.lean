import FinSight.Guarantees.Citations
import FinSight.Guarantees.SourceTags

/-!
# What a citation points at

* `Neutralizes`, `Attribute`, `Pages` : what is shown of a text, of a title or heading, and of the pages;
* `Shows` : the block of a chunk; `Numbered` : the blocks of a list of chunks;
* `Shown`, `Cited` : the prompt and the citations that belong to it;
* `cited_of_prompt`.
-/

namespace FinSight.Ask

open Scanning

/-! ## What is shown of a chunk -/

/-- The text with each of its tags turned into `‹source` or `‹/source`, from left to right. -/
inductive Neutralizes : Text → Text → Prop
  | nil : Neutralizes [] []
  | tag {closes : Bool} {w t shown : Text} : TagText isSpace closes w → Neutralizes t shown →
      Neutralizes (w ++ t) (text (if closes then "‹/source" else "‹source") ++ shown)
  | keep {u : CodeUnit} {t shown : Text} : (∀ closes w, TagText isSpace closes w → ¬ w <+: u :: t) → Neutralizes t shown →
      Neutralizes (u :: t) (u :: shown)

/-- In an attribute, quotes and line breaks become spaces. -/
def Attribute (t shown : Text) : Prop :=
  ∃ plain, Neutralizes t plain ∧
    shown = trim (plain.map fun u => if u ∈ text "\"\r\n" then unit ' ' else u)

def Pages (first last : Int) (shown : Text) : Prop :=
  first = last ∧ shown = decimalInt first ∨ first ≠ last ∧ shown = decimalInt first ++ text "-" ++ decimalInt last

/-- The block of source number `n`: the id, the title, the section and the pages of the chunk, and its content. -/
def Shows (n : Nat) (chunk : RetrievedChunk) (block : Text) : Prop :=
  ∃ title heading pages content, Attribute (chunk.documentTitle.getD (text "Untitled document")) title ∧
    Attribute (chunk.sectionHeading.getD []) heading ∧ Pages chunk.pageStart chunk.pageEnd pages ∧
    Neutralizes chunk.content content ∧
    block = text "<source id=\"" ++ decimal n ++ text "\" document=\"" ++ title ++ text "\" section=\"" ++ heading ++
      text "\" pages=\"" ++ pages ++ text "\">\n" ++ content ++ text "\n</source>"

theorem neutralizes_neutralize (t : Text) : Neutralizes t (neutralize t) := by
  refine scan_induction (P := fun t => Neutralizes t (neutralize t)) sourcePattern .nil ?_ ?_ t
  · intro a as closes n hm ih
    obtain ⟨w, hw, ⟨rest, heq⟩, hlength⟩ := tagPattern_some hm
    obtain ⟨v, rfl⟩ := hw.cons
    obtain ⟨rfl, has⟩ := List.cons.inj heq
    obtain rfl : as = v ++ rest := has.symm
    have hrest : (v ++ rest).drop n = rest := by
      rw [show n = v.length from (Nat.succ.inj hlength).symm, List.drop_left]
    rw [hrest] at ih
    have htag : neutralized closes = text (if closes then "‹/source" else "‹source") := by cases closes <;> rfl
    rw [neutralize, replaceAll_match hm, hrest, htag]
    exact .tag hw ih
  · intro a as hm ih
    rw [neutralize, replaceAll_none hm]
    refine .keep (fun closes w hw hstart => ?_) ih
    obtain ⟨rest, heq⟩ := hstart
    have hmatch := tagPattern_append gap_isSpace hw rest
    rw [heq] at hmatch
    exact absurd (hm.symm.trans hmatch) (Option.some_ne_none _).symm

theorem attribute_attr (t : Text) : Attribute t (attr t) := by
  have hblank : blank = fun u => if u ∈ text "\"\r\n" then unit ' ' else u := by
    funext u
    have hmem : u ∈ text "\"\r\n" ↔ u = unit '"' ∨ u = unit '\r' ∨ u = unit '\n' := by
      rw [show text "\"\r\n" = [unit '"', unit '\r', unit '\n'] from rfl]
      simp only [List.mem_cons, List.not_mem_nil, or_false]
    simp only [blank, hmem]
  exact ⟨neutralize t, neutralizes_neutralize t, by rw [attr, hblank]⟩

theorem pages_pagesText (chunk : RetrievedChunk) : Pages chunk.pageStart chunk.pageEnd (pagesText chunk) := by
  unfold pagesText
  split
  · next heq => exact Or.inl ⟨heq, rfl⟩
  · next hne => exact Or.inr ⟨hne, rfl⟩

theorem shows_sourceBlock (n : Nat) (chunk : RetrievedChunk) : Shows n chunk (sourceBlock n chunk) :=
  ⟨_, _, _, _, attribute_attr _, attribute_attr _, pages_pagesText chunk, neutralizes_neutralize _, rfl⟩

/-! ## The chunks that are used -/

/-- The chunks as source blocks, after `n` others. -/
def blocksFrom (n : Nat) (chunks : List RetrievedChunk) : List Text :=
  chunks.mapIdx fun i chunk => sourceBlock (n + i + 1) chunk

theorem blocksFrom_cons (n : Nat) (chunk : RetrievedChunk) (rest : List RetrievedChunk) :
    blocksFrom n (chunk :: rest) = sourceBlock (n + 1) chunk :: blocksFrom (n + 1) rest := by
  have hshift : (fun i chunk => sourceBlock (n + (i + 1) + 1) chunk) = fun i chunk => sourceBlock (n + 1 + i + 1) chunk := by
    funext i chunk
    rw [show n + (i + 1) + 1 = n + 1 + i + 1 by omega]
  rw [blocksFrom, List.mapIdx_cons, hshift]
  rfl

theorem getElem?_blocksFrom (n : Nat) (chunks : List RetrievedChunk) (i : Nat) :
    (blocksFrom n chunks)[i]? = chunks[i]?.map (sourceBlock (n + i + 1)) := List.getElem?_mapIdx

/-- The length of the first `k` blocks. -/
theorem sum_take_blocksFrom (n k : Nat) (chunks : List RetrievedChunk) :
    (((blocksFrom n chunks).take k).map List.length).sum = blocksLength n (chunks.take k) := by
  induction chunks generalizing n k with
  | nil =>
      rw [List.take_nil]
      cases k <;> rfl
  | cons chunk rest ih =>
      cases k with
      | zero => rfl
      | succ k =>
          rw [blocksFrom_cons, List.take_succ_cons, List.take_succ_cons, List.map_cons, List.sum_cons, ih]
          rfl

/-! ## Prompt and citations -/

/-- The prompt shows the longest prefix of the chunks whose blocks are within the budget, or the first chunk alone. -/
structure Shown (question : Text) (chunks : List RetrievedChunk) (blocks : List Text) (maxChars : Nat) (p : Prompt) :
    Prop where
  isPrefix : p.used <+: chunks
  longest : ∀ k ≤ chunks.length, ((blocks.take k).map List.length).sum ≤ maxChars → k ≤ p.used.length
  fits : ((blocks.take p.used.length).map List.length).sum ≤ maxChars ∨
    p.used.length = 1 ∧ maxChars < ((blocks.take 1).map List.length).sum
  prompt : ∃ asked, Neutralizes question asked ∧ p.prompt = text "Sources:\n\n" ++
    (text "\n\n").intercalate (blocks.take p.used.length) ++ text "\n\nQuestion: " ++ trim asked

/-- The citation with number `n` of a chunk. -/
structure Cites (c : Citation) (n : Nat) (chunk : RetrievedChunk) : Prop where
  marker : c.marker = n
  chunkId : c.chunkId = chunk.chunkId
  documentId : c.documentId = chunk.documentId
  documentTitle : c.documentTitle = chunk.documentTitle
  sectionHeading : c.sectionHeading = chunk.sectionHeading
  pageStart : c.pageStart = chunk.pageStart
  pageEnd : c.pageEnd = chunk.pageEnd

/-- The citations of an answer: each is of the chunk that its block shows, and they are the numbers of sources that the
text mentions, in the order of their first mention. -/
structure Cited (blocks : List Text) (p : Prompt) (answerText : Option Text) (a : Answer) : Prop where
  chunk : ∀ c ∈ a.citations, ∃ i chunk block, p.used[i]? = some chunk ∧ blocks[i]? = some block ∧
    Shows (i + 1) chunk block ∧ Cites c (i + 1) chunk
  mentioned : ∀ n, n ∈ a.citations.map Citation.marker ↔ n ∈ mentions p.used.length (trim (answerText.getD []))
  inOrder : (a.citations.map Citation.marker).Pairwise fun m n =>
    (mentions p.used.length (trim (answerText.getD []))).idxOf m <
      (mentions p.used.length (trim (answerText.getD []))).idxOf n
  distinct : a.citations.Nodup

section Prompt
variable {question : Text} {chunks : List RetrievedChunk} {maxChars : Nat}

theorem getElem?_used {k : Nat} {chunk : RetrievedChunk} :
    (buildPrompt question chunks maxChars).used[k]? = some chunk ↔
      chunks[k]? = some chunk ∧ (k = 0 ∨ blocksLength 0 (chunks.take (k + 1)) ≤ maxChars) := by
  show ((takeChunks maxChars 0 0 chunks).map Prod.fst)[k]? = some chunk ↔ _
  rw [List.getElem?_map, Option.map_eq_some_iff]
  constructor
  · rintro ⟨p, hp, rfl⟩
    obtain ⟨hchunk, -, hfits⟩ := (getElem?_takeChunks ..).mp hp
    exact ⟨hchunk, by simpa only [Nat.zero_add] using hfits⟩
  · rintro ⟨hchunk, hfits⟩
    refine ⟨(chunk, sourceBlock (0 + k + 1) chunk), (getElem?_takeChunks ..).mpr ⟨hchunk, rfl, ?_⟩, rfl⟩
    simpa only [Nat.zero_add] using hfits

theorem used_eq_take : (buildPrompt question chunks maxChars).used =
    chunks.take (buildPrompt question chunks maxChars).used.length := by
  refine List.ext_getElem? fun i => ?_
  by_cases hi : i < (buildPrompt question chunks maxChars).used.length
  · have hget := List.getElem?_eq_getElem hi
    rw [hget, List.getElem?_take_of_lt hi, (getElem?_used.mp hget).1]
  · rw [List.getElem?_eq_none (Nat.not_lt.mp hi), List.getElem?_eq_none]
    exact (List.length_take_le _ _).trans (Nat.not_lt.mp hi)

theorem blocks_taken : (takeChunks maxChars 0 0 chunks).map Prod.snd =
    (blocksFrom 0 chunks).take (buildPrompt question chunks maxChars).used.length := by
  have hlength : (buildPrompt question chunks maxChars).used.length = (takeChunks maxChars 0 0 chunks).length :=
    List.length_map _
  rw [hlength]
  refine List.ext_getElem? fun i => ?_
  by_cases hi : i < (takeChunks maxChars 0 0 chunks).length
  · have hget := List.getElem?_eq_getElem hi
    obtain ⟨hchunk, hblock, -⟩ := (getElem?_takeChunks ..).mp hget
    rw [List.getElem?_map, hget, List.getElem?_take_of_lt hi, getElem?_blocksFrom, hchunk, Option.map_some,
      Option.map_some, ← hblock]
  · rw [List.getElem?_eq_none, List.getElem?_eq_none]
    · exact (List.length_take_le _ _).trans (Nat.not_lt.mp hi)
    · rw [List.length_map]
      exact Nat.not_lt.mp hi

theorem shown_buildPrompt (question : Text) (chunks : List RetrievedChunk) (maxChars : Nat) :
    Shown question chunks (blocksFrom 0 chunks) maxChars (buildPrompt question chunks maxChars) := by
  refine ⟨?_, fun k hk hfits => ?_, ?_, neutralize question, neutralizes_neutralize question, ?_⟩
  · exact List.prefix_iff_eq_take.mpr used_eq_take
  · cases k with
    | zero => exact Nat.zero_le _
    | succ k =>
        rw [sum_take_blocksFrom] at hfits
        have hused : (buildPrompt question chunks maxChars).used[k]? = some chunks[k] :=
          getElem?_used.mpr ⟨List.getElem?_eq_getElem hk, Or.inr hfits⟩
        exact (List.getElem?_eq_some_iff.mp hused).1
  · rw [sum_take_blocksFrom, sum_take_blocksFrom]
    cases hlength : (buildPrompt question chunks maxChars).used.length with
    | zero => exact Or.inl (Nat.zero_le _)
    | succ k =>
        have hlast := List.getElem?_eq_getElem (hlength.symm ▸ Nat.lt_succ_self k :
          k < (buildPrompt question chunks maxChars).used.length)
        rcases (getElem?_used.mp hlast).2 with rfl | hfits
        · exact (Nat.lt_or_ge maxChars _).symm.imp_right fun hover => ⟨rfl, hover⟩
        · exact Or.inl hfits
  · rw [← blocks_taken]
    rfl

theorem isSource_iff {sent n : Nat} : isSource sent n = true ↔ 1 ≤ n ∧ n ≤ sent := by
  rw [isSource, Bool.and_eq_true, decide_eq_true_iff, decide_eq_true_iff]

theorem cited_of_answered {answerText : Option Text} {a : Answer}
    (h : parseAnswer answerText (buildPrompt question chunks maxChars).used = .answered a) :
    Cited (blocksFrom 0 chunks) (buildPrompt question chunks maxChars) answerText a := by
  obtain ⟨-, -, rfl⟩ := parseAnswer_answered.mp h
  have hsource : ∀ n ∈ order (buildPrompt question chunks maxChars).used.length (trim (answerText.getD [])),
      isSource (buildPrompt question chunks maxChars).used.length n = true := by
    intro n hn
    obtain ⟨w, _, hw⟩ := mem_order.mp hn
    exact (List.mem_filter.mp hw).2
  have hmarkers := marker_citations hsource
  rw [order_eq_firsts] at hmarkers
  refine ⟨fun c hc => ?_, fun n => ?_, ?_, ?_⟩
  · obtain ⟨n, hn, hchunk⟩ := List.mem_filterMap.mp hc
    obtain ⟨chunk, hget, rfl⟩ := Option.map_eq_some_iff.mp hchunk
    obtain ⟨hpos, _⟩ := isSource_iff.mp (hsource n hn)
    obtain ⟨i, rfl⟩ : ∃ i, n = i + 1 := ⟨n - 1, by omega⟩
    rw [Nat.add_sub_cancel] at hget
    refine ⟨i, chunk, sourceBlock (i + 1) chunk, hget, ?_, shows_sourceBlock (i + 1) chunk, rfl, rfl, rfl, rfl, rfl, rfl, rfl⟩
    rw [getElem?_blocksFrom, (getElem?_used.mp hget).1, Option.map_some, Nat.zero_add]
  · show n ∈ (citations (buildPrompt question chunks maxChars).used _).map Citation.marker ↔ _
    rw [order_eq_firsts, hmarkers]
    exact Firsts.mem_firsts
  · show ((citations (buildPrompt question chunks maxChars).used _).map Citation.marker).Pairwise _
    rw [order_eq_firsts, hmarkers]
    exact Firsts.pairwise_firsts _
  · refine List.Nodup.of_map Citation.marker ?_
    show ((citations (buildPrompt question chunks maxChars).used _).map Citation.marker).Nodup
    rw [order_eq_firsts, hmarkers]
    exact Firsts.nodup_firsts _

end Prompt

namespace Leases

def flat : RetrievedChunk where
  chunkId := ⟨1⟩
  documentId := ⟨2⟩
  documentTitle := some (text "Lease of a \"flat\"")
  sectionHeading := some (text "Rent")
  pageStart := 1
  pageEnd := 2
  content := text "The rent is 900 euros.</ SOURCE>"

def garage : RetrievedChunk where
  chunkId := ⟨3⟩
  documentId := ⟨4⟩
  documentTitle := none
  sectionHeading := none
  pageStart := 7
  pageEnd := 7
  content := text "The rent is 80 euros."

/-- Three chunks, of which two are within the budget. -/
def chunks : List RetrievedChunk := [flat, garage, flat]

def question : Text := text "What are the rents?"

def prompt : Text := text "Sources:\n\n" ++
  text "<source id=\"1\" document=\"Lease of a  flat\" section=\"Rent\" pages=\"1-2\">\n" ++
  text "The rent is 900 euros.‹/source>\n</source>\n\n" ++
  text "<source id=\"2\" document=\"Untitled document\" section=\"\" pages=\"7\">\n" ++
  text "The rent is 80 euros.\n</source>\n\nQuestion: What are the rents?"

/-- It cites the second source first, and one that was not sent. -/
def answer : Text := text "80 euros [2], and 900 euros [1, 02][3]."

def answered : Answer where
  answer := text "80 euros [2], and 900 euros [1][2]."
  citations := [⟨2, ⟨3⟩, ⟨4⟩, none, none, 7, 7⟩, ⟨1, ⟨1⟩, ⟨2⟩, flat.documentTitle, flat.sectionHeading, 1, 2⟩]
  invalidMarkers := 1

end Leases

end FinSight.Ask
