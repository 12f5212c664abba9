import Mathlib.Data.List.SplitBy
import Conform.Text.Bullet

namespace Conform.Text

def itemMark : List Char := [' ', ' ', '*', ' ']

def startsItem (row : List Char) : Bool := itemMark.isPrefixOf row

/-- The items of a bullet list, each as its lines. An item starts at every row with the mark, and
four characters are removed from the front of every row that is not empty. -/
def items (text : List Char) : List (List (List Char)) :=
  let rows := (text.splitOn '\n').dropWhile fun row => !startsItem row
  (rows.splitBy fun _ row => !startsItem row).map fun item => item.map (·.drop 4)

/-- The lines that a text has as an item: the empty text has one empty line. -/
def itemLines (text : String) : List (List Char) :=
  match lines text.toList with
  | [] => [[]]
  | ls => ls

def itemRows (text : String) : List (List Char) :=
  (itemMark ++ (lines text.toList).headD []) :: (lines text.toList).tail.map indented

theorem lineFeed_notMem_lines {cs line : List Char} (h : line ∈ lines cs) : '\n' ∉ line := by
  fun_induction lines cs generalizing line with
  | case1 => simp at h
  | case2 rest ih | case3 rest ih =>
    rcases List.mem_cons.1 h with rfl | h
    · exact List.not_mem_nil
    · exact ih h
  | case4 c rest hfeed _ hnil ih =>
    obtain rfl := List.mem_singleton.1 h
    exact fun hc => hfeed (List.mem_singleton.1 hc).symm
  | case5 c rest hfeed _ first more hlines ih =>
    rw [hlines] at ih
    rcases List.mem_cons.1 h with rfl | h
    · intro hc
      rcases List.mem_cons.1 hc with hc | hc
      · exact hfeed hc.symm
      · exact ih (by simp) hc
    · exact ih (List.mem_cons_of_mem _ h)

theorem lineFeed_notMem_itemRows {text : String} {row : List Char} (h : row ∈ itemRows text) :
    '\n' ∉ row := by
  rcases List.mem_cons.1 h with rfl | h
  · cases hlines : lines text.toList with
    | nil => decide
    | cons first more =>
      have hfirst : '\n' ∉ first := lineFeed_notMem_lines (hlines ▸ List.mem_cons_self)
      simpa [itemMark] using hfirst
  · obtain ⟨line, hline, rfl⟩ := List.mem_map.1 h
    have hfeed := lineFeed_notMem_lines (List.mem_of_mem_tail hline)
    unfold indented
    split
    · exact List.not_mem_nil
    · simpa using hfeed

theorem intercalate_lineFeed (first : List Char) (rows : List (List Char)) :
    ['\n'].intercalate (first :: rows) = first ++ rows.flatMap ('\n' :: ·) := by
  induction rows generalizing first with
  | nil => simp
  | cons row rows ih =>
    rw [List.intercalate_cons_cons, ih, List.flatMap_cons]
    simp

theorem toList_bullet (text : String) :
    (bullet text).toList = ['\n'].intercalate (itemRows text) := by
  unfold itemRows
  rw [intercalate_lineFeed, List.flatMap_map]
  simp [bullet, itemMark]

theorem splitOn_bullet (text : String) : (bullet text).toList.splitOn '\n' = itemRows text := by
  rw [toList_bullet]
  exact List.splitOn_intercalate '\n' (fun _ => lineFeed_notMem_itemRows) (List.cons_ne_nil _ _)

theorem splitOn_bullets {texts : List String} (h : texts ≠ []) :
    (bullets texts).toList.splitOn '\n' = texts.flatMap itemRows := by
  unfold bullets
  rw [String.toList_intercalate]
  induction texts with
  | nil => exact absurd rfl h
  | cons text texts ih =>
    cases texts with
    | nil => simpa using splitOn_bullet text
    | cons next texts =>
      replace ih := ih (List.cons_ne_nil _ _)
      simp only [List.map_cons] at ih ⊢
      rw [List.intercalate_cons_cons, List.append_assoc, List.flatMap_cons, ← ih, ← splitOn_bullet]
      exact List.splitOnP_append_cons _ _ rfl

theorem startsItem_itemMark (line : List Char) : startsItem (itemMark ++ line) = true := by
  simp [startsItem, itemMark]

/-- A row that continues an item does not start one, even if the line itself has the mark. -/
theorem startsItem_indented (line : List Char) : startsItem (indented line) = false := by
  unfold indented
  split
  · decide
  · rfl

theorem splitBy_itemRows (texts : List String) :
    ((texts.flatMap itemRows).splitBy fun _ row => !startsItem row) = texts.map itemRows := by
  rw [List.flatMap_def]
  apply List.splitBy_flatten
  · intro h
    obtain ⟨text, -, htext⟩ := List.mem_map.1 h
    exact List.cons_ne_nil _ _ htext
  · intro rows hrows
    obtain ⟨text, -, rfl⟩ := List.mem_map.1 hrows
    refine List.Pairwise.isChain (List.pairwise_cons.2 ⟨?_, List.pairwise_map.2 ?_⟩)
    · intro row hrow
      obtain ⟨line, -, rfl⟩ := List.mem_map.1 hrow
      simp [startsItem_indented]
    · exact List.pairwise_of_forall fun _ _ => by simp [startsItem_indented]
  · refine List.Pairwise.isChain (List.pairwise_map.2 (List.pairwise_of_forall fun text next => ?_))
    exact ⟨List.cons_ne_nil _ _, List.cons_ne_nil _ _, by simp [itemRows, startsItem_itemMark]⟩

theorem drop_indented (line : List Char) : (indented line).drop 4 = line := by
  unfold indented
  split
  next h => simp [List.isEmpty_iff.1 h]
  next => rfl

theorem map_drop_itemRows (text : String) : (itemRows text).map (·.drop 4) = itemLines text := by
  have htail : ((lines text.toList).tail.map indented).map (·.drop 4) =
      (lines text.toList).tail := by
    rw [List.map_map, show (·.drop 4) ∘ indented = id from funext drop_indented, List.map_id]
  unfold itemRows itemLines
  rw [List.map_cons, htail]
  cases lines text.toList with
  | nil => rfl
  | cons first more => rfl

/-- A bullet list can be read back: it has the lines of its texts as its items, in order. -/
theorem items_bullets {texts : List String} (h : texts ≠ []) :
    items (bullets texts).toList = texts.map itemLines := by
  have hdrop : ((texts.flatMap itemRows).dropWhile fun row => !startsItem row) =
      texts.flatMap itemRows := by
    cases texts with
    | nil => rfl
    | cons text texts => simp [itemRows, startsItem_itemMark]
  unfold items
  rw [splitOn_bullets h, hdrop]
  dsimp only
  rw [splitBy_itemRows, List.map_map]
  exact List.map_congr_left fun text _ => map_drop_itemRows text

end Conform.Text
