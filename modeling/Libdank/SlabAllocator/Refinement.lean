import Libdank.Foundation.Bitmap
import Libdank.Foundation.ThreadedList
import Libdank.SlabAllocator.Slabs

/-! The arrays, usemaps and links of an allocator stand for slabs, and every
call does to the slabs what it should, for as long as no request for the pages
of a new block is refused. -/
namespace Libdank.SlabAllocator
open Requests Buffers Magic Bitmap ThreadedList

variable {w : ℕ}

/-- The link in a node; pointers from before the array moved lead nowhere. -/
def Slalloc.follow (s : Slalloc w) (map : Node) : Option (Pointer Node) :=
  if map.generation = s.generation then s.usemaps[map.index]?.map Pgdata.nextNonfull else none

def Slalloc.Nonfull (s : Slalloc w) (blocks : List ℕ) : Prop :=
  Threaded s.follow s.nonfullUsemaps (blocks.map (Node.mk s.generation))

structure Pgdata.Tracks (l : Layout w) (pd : Pgdata w) (used : Finset ℕ) : Prop where
  held : pd.held = true
  words : pd.usemap.length = l.objwordsperblock
  marks : marked pd.usemap = used
  unallocated : pd.unallocated + used.card = l.objsperblock

structure Represents (l : Layout w) (v : Slabs) (s : Slalloc w) : Prop where
  layout : s.layout = l
  bytes : s.bytes = v.bytes
  count : s.blockcount = v.count
  small : v.count < 2 ^ 32
  pages : ∀ b < v.count, s.pgarray[b]? = some (v.base b : ℕ)
  maps : ∀ b < v.count, ∃ pd, s.usemaps[b]? = some pd ∧ pd.Tracks l (v.used b)
  nonfull : s.Nonfull v.nonfull

variable {l : Layout w} {v : Slabs} {s : Slalloc w}

theorem pointer_address (p : Place) : pointer (v.address l p) = some (v.address l p) :=
  if_neg (Nat.add_pos_left (v.base p.1).pos _).ne'

theorem pgdata_eq {pd : Pgdata w} {b : ℕ} (cell : s.usemaps[b]? = some pd) : s.pgdata b = pd := by
  rw [Slalloc.pgdata, List.getD_eq_getElem?_getD, cell, Option.getD_some]

theorem Represents.object_eq (rep : Represents l v s) {p : Place} (hp : p.1 < v.count) :
    s.object p.1 p.2 = v.address l p := by
  rw [Slalloc.object, List.getD_eq_getElem?_getD, rep.pages _ hp, Option.getD_some, rep.layout,
    Nat.add_assoc]
  rfl

theorem firstUnused_eq (pos : 0 < w) (words : List (BitVec w)) (z i : ℕ)
    (below : ∀ j < i, bit words j = true) (clear : bit words i = false)
    (room : i < w * words.length) :
    firstUnused z words = some (z + i / w, BitVec.twoPow w (i % w)) := by
  induction words generalizing z i with
  | nil => simp at room
  | cons word rest ih =>
    rw [bit_cons pos] at clear
    by_cases first : i < w
    · rw [if_pos first] at clear
      have low : ∀ j < i, word.getLsbD j = true := fun j lt => by
        have := below j lt
        rwa [bit_cons pos, if_pos (lt.trans first)] at this
      have rmost : ~~~word &&& (word + 1) = BitVec.twoPow w i := rightmostClear_lowest first low clear
      simp only [firstUnused, rmost, if_neg (twoPow_ne_zero first), Nat.div_eq_of_lt first,
        Nat.mod_eq_of_lt first, Nat.add_zero]
    · obtain ⟨j, rfl⟩ := Nat.exists_eq_add_of_le (not_lt.mp first)
      rw [if_neg first, Nat.add_sub_cancel_left] at clear
      have full : ∀ j < w, word.getLsbD j = true := fun k lt => by
        have := below k (by omega)
        rwa [bit_cons pos, if_pos lt] at this
      have later : ∀ k < j, bit rest k = true := fun k lt => by
        have := below (w + k) (by omega)
        rwa [bit_cons pos, if_neg (by omega), Nat.add_sub_cancel_left] at this
      have rmost : ~~~word &&& (word + 1) = 0 := rightmostClear_full full
      rw [List.length_cons, Nat.mul_succ] at room
      simp only [firstUnused, rmost, if_true, ih (z + 1) j later clear (by omega)]
      rw [Nat.add_div_left _ pos, Nat.add_mod_left, Nat.add_right_comm, Nat.add_assoc]

theorem Pgdata.Tracks.firstUnused {pd : Pgdata w} {used : Finset ℕ} (tracks : pd.Tracks l used)
    (room : used.card < l.objsperblock) :
    firstUnused 0 (pd.usemap.take l.objwordsperblock) =
      some (lowest used / w, BitVec.twoPow w (lowest used % w)) := by
  have pos : 0 < w := by
    have := l.word
    omega
  have inside := (lowest_lt room).trans_le l.objsperblock_le_words
  have clear : bit pd.usemap (lowest used) = false := by
    have := lowest_notMem used
    rw [← tracks.marks, mem_marked, tracks.marks] at this
    exact Bool.not_eq_true _ ▸ this
  rw [← tracks.words, List.take_length, firstUnused_eq pos pd.usemap 0 (lowest used) ?_ clear
    (tracks.words ▸ inside), Nat.zero_add]
  intro j lt
  exact mem_marked.mp (tracks.marks ▸ mem_of_lt_lowest lt)

section Links

variable {pd pd' : Pgdata w} {b : ℕ} {head : Pointer Node} {bytes : Bytes}

theorem follow_set (map : Node) (other : map.index ≠ b) :
    ({ s with bytes, usemaps := s.usemaps.set b pd', nonfullUsemaps := head }).follow map =
      s.follow map := by
  simp only [Slalloc.follow, List.getElem?_set_ne other.symm]

theorem follow_set_self (cell : s.usemaps[b]? = some pd) :
    ({ s with bytes, usemaps := s.usemaps.set b pd', nonfullUsemaps := head }).follow
      ⟨s.generation, b⟩ = some pd'.nextNonfull := by
  simp [Slalloc.follow, (List.getElem?_eq_some_iff.mp cell).1]

theorem follow_set_same (cell : s.usemaps[b]? = some pd)
    (same : pd'.nextNonfull = pd.nextNonfull) :
    ({ s with bytes, usemaps := s.usemaps.set b pd', nonfullUsemaps := head }).follow =
      s.follow := by
  funext map
  by_cases here : map.index = b
  · obtain ⟨inside, rfl⟩ := List.getElem?_eq_some_iff.mp cell
    simp [Slalloc.follow, here, inside, same]
  · exact follow_set map here

theorem Represents.maps_set (rep : Represents l v s) (cell : s.usemaps[b]? = some pd)
    {used : Finset ℕ} (tracks : pd'.Tracks l used) :
    ∀ c < v.count, ∃ pd, (s.usemaps.set b pd')[c]? = some pd ∧
      pd.Tracks l (Function.update v.used b used c) := by
  intro c hc
  by_cases here : c = b
  · subst here
    exact ⟨pd', by simp [(List.getElem?_eq_some_iff.mp cell).1], by simpa using tracks⟩
  · rw [List.getElem?_set_ne (Ne.symm here), Function.update_of_ne here]
    exact rep.maps c hc

end Links

theorem Represents.grant (rep : Represents l v s) {b : ℕ} {rest : List ℕ}
    (head : v.nonfull = b :: rest) {pd : Pgdata w} (cell : s.usemaps[b]? = some pd)
    (usemap : List (BitVec w)) (tracks : Pgdata.Tracks l
      { pd with usemap, unallocated := pd.unallocated - 1 }
      (insert (lowest (v.used b)) (v.used b)))
    (last : pd.unallocated - 1 = 0 ↔ (v.used b).card + 1 = l.objsperblock) :
    Represents l (v.grant l b rest) { s with
      usemaps := s.usemaps.set b { pd with usemap, unallocated := pd.unallocated - 1 }
      nonfullUsemaps := if pd.unallocated - 1 = 0 then pd.nextNonfull else s.nonfullUsemaps } where
  layout := rep.layout
  bytes := rep.bytes
  count := rep.count
  small := rep.small
  pages := rep.pages
  maps := rep.maps_set cell tracks
  nonfull := by
    have links := rep.nonfull
    rw [Slalloc.Nonfull, head] at links
    obtain ⟨start, link, read, tail⟩ := links
    have next : link = pd.nextNonfull := by
      simpa [Slalloc.follow, cell, eq_comm] using read
    rw [Slalloc.Nonfull, follow_set_same cell (by rfl)]
    by_cases full : pd.unallocated - 1 = 0
    · simp only [Slabs.grant, if_pos full, if_pos (last.mp full)]
      exact next ▸ tail
    · simp only [Slabs.grant, if_neg full, if_neg (last.not.mp full)]
      exact ⟨start, link, read, tail⟩

/-- With a block that has room first in the list, its lowest place is given. -/
theorem takeFirstUnused_eq (rep : Represents l v s) {b : ℕ} {rest : List ℕ}
    (head : v.nonfull = b :: rest) (hb : b < v.count) (room : (v.used b).card < l.objsperblock)
    (h : Heap) :
    ∃ s', takeFirstUnused s h = ((some (v.address l (v.next b)), s'), h) ∧
      Represents l (v.grant l b rest) s' := by
  obtain ⟨pd, cell, tracks⟩ := rep.maps b hb
  have start : s.nonfullUsemaps = some ⟨s.generation, b⟩ := by
    have links := rep.nonfull
    rw [Slalloc.Nonfull, head] at links
    exact links.1
  have word := l.word
  have pos : 0 < w := by omega
  have small := l.objsperblock_lt
  have count := tracks.unallocated
  have lt := Nat.mod_lt (lowest (v.used b)) pos
  have split := Nat.div_add_mod' (lowest (v.used b)) w
  have less : (pd.unallocated + (2 ^ 32 - 1)) % 2 ^ 32 = pd.unallocated - 1 := by omega
  have log : uintlog2 (BitVec.twoPow w (lowest (v.used b) % w)).toNat = lowest (v.used b) % w := by
    rw [BitVec.toNat_twoPow, Nat.mod_eq_of_lt (Nat.pow_lt_pow_right (by omega) lt),
      uintlog2_pow (by omega)]
  have next : s.object b (lowest (v.used b)) = v.address l (v.next b) :=
    rep.object_eq (show (v.next b).1 < v.count from hb)
  have inside : lowest (v.used b) / w < pd.usemap.length := by
    have le := (lowest_lt room).trans_le l.objsperblock_le_words
    rw [tracks.words]
    exact Nat.div_lt_of_lt_mul le
  have marked := marked_or inside lt
  rw [split, tracks.marks] at marked
  have card := Finset.card_insert_of_notMem (lowest_notMem (v.used b))
  refine ⟨_, ?_, rep.grant head cell (pd.usemap.modify (lowest (v.used b) / w)
    (· ||| BitVec.twoPow w (lowest (v.used b) % w)))
    ⟨tracks.held, (List.length_modify _ _ _).trans tracks.words, marked, by dsimp only; omega⟩
    (by omega)⟩
  unfold takeFirstUnused
  rw [start]
  simp only [bind_apply, pgdata_eq cell, tracks.held, visit_eq, decide_true, Bool.and_self,
    rep.layout, tracks.firstUnused room, log, split, next, pointer_address, less]
  rfl

theorem Represents.head_none_iff (rep : Represents l v s) :
    s.nonfullUsemaps = none ↔ v.nonfull = [] := by
  have links := rep.nonfull
  rw [Slalloc.Nonfull] at links
  constructor
  · intro none
    rw [none, threaded_none] at links
    exact List.map_eq_nil_iff.mp links
  · intro empty
    rw [empty] at links
    exact links

theorem takeFirstUnused_none (rep : Represents l v s) (empty : v.nonfull = []) (h : Heap) :
    takeFirstUnused s h = ((none, s), h) := by
  rw [takeFirstUnused, rep.head_none_iff.mpr empty]
  rfl

section Growth

def acquire (l : Layout w) (blocks : ℕ) : Request Bool := do
  let count := (blocks + 1) % 2 ^ 32
  let ok ← allocate (8 * count)
  if ok then
    let ok ← allocate (24 * count)
    if ok then
      let ok ← allocate (w / 8 * l.objwordsperblock)
      if ok then allocate l.blockBytes else pure false
    else pure false
  else pure false

/-- The call gets as far as asking for pages and is refused them. -/
def PagesRefused (s : Slalloc w) (h : Heap) : Prop :=
  s.nonfullUsemaps = none ∧ (s.blockcount + 1) % 2 ^ 32 ≠ 0 ∧
    h.answer 0 = true ∧ h.answer 1 = true ∧ h.answer 2 = true ∧ h.answer 3 = false

instance (s : Slalloc w) (h : Heap) : Decidable (PagesRefused s h) :=
  inferInstanceAs (Decidable (_ ∧ _))

theorem acquire_eq (l : Layout w) {blocks : ℕ} (more : (blocks + 1) % 2 ^ 32 = blocks + 1)
    (h : Heap) : acquire l blocks h =
      if h.answer 0 then
        if h.answer 1 then
          if h.answer 2 then (h.answer 3, h.later 4) else (false, h.later 3)
        else (false, h.later 2)
      else (false, h.later 1) := by
  have words : w / 8 * l.objwordsperblock ≠ 0 := by
    have word := l.word
    exact Nat.mul_ne_zero (by omega) l.objwordsperblock_pos.ne'
  have pages : l.blockBytes ≠ 0 :=
    Nat.mul_ne_zero (l.nonempty.trans_le l.fits).ne' l.pagesperblock_pos.ne'
  unfold acquire
  simp only [more, bind_apply, allocate_eq (show 8 * (blocks + 1) ≠ 0 by omega)]
  cases h.answer 0 with
  | false => rfl
  | true =>
    simp only [if_true, bind_apply, allocate_eq (show 24 * (blocks + 1) ≠ 0 by omega)]
    simp only [answer_later, later_later]
    cases h.answer 1 with
    | false => rfl
    | true =>
      simp only [if_true, bind_apply, allocate_eq words, answer_later, later_later]
      cases h.answer 2 with
      | false => rfl
      | true => simp only [if_true, allocate_eq pages, answer_later, later_later]

theorem fistfulOfPages_eq (base : ℕ+) (bytes : Bytes) (h : Heap) :
    fistfulOfPages base bytes l.pgsize (uintlog2 l.pagesperblock) h =
      (if h.answer 0 then (some (base : ℕ), zero bytes base l.blockBytes) else (none, bytes),
        h.later 1) := by
  obtain ⟨order, same, few⟩ := l.order_pagesperblock
  have pages : l.pgsize * l.pagesperblock ≠ 0 :=
    Nat.mul_ne_zero (l.nonempty.trans_le l.fits).ne' l.pagesperblock_pos.ne'
  rw [fistfulOfPages, if_neg (by omega), snatchContiguousPages, same, if_neg (by omega),
    bind_apply, allocate_eq pages]
  cases h.answer 0 <;> rfl

theorem tracks_empty (link : Pointer Node) : Pgdata.Tracks l
    ⟨List.replicate l.objwordsperblock 0, true, l.objsperblock, link⟩ ∅ where
  held := rfl
  words := List.length_replicate
  marks := marked_replicate _
  unallocated := by simp

theorem Represents.unlisted (rep : Represents l v s) (empty : v.nonfull = []) {pgarray : List ℕ}
    {usemaps : List (Pgdata w)} {generation : ℕ}
    (pages : ∀ b < v.count, pgarray[b]? = s.pgarray[b]?)
    (maps : ∀ b < v.count, usemaps[b]? = s.usemaps[b]?) :
    Represents l v { s with pgarray, usemaps, generation } where
  layout := rep.layout
  bytes := rep.bytes
  count := rep.count
  small := rep.small
  pages b hb := (pages b hb).trans (rep.pages b hb)
  maps b hb := by
    obtain ⟨pd, cell, tracks⟩ := rep.maps b hb
    exact ⟨pd, (maps b hb).trans cell, tracks⟩
  nonfull := by
    have links := rep.nonfull
    rw [Slalloc.Nonfull, empty] at links ⊢
    exact links

theorem pagesRefused_congr {s' : Slalloc w} (rep : Represents l v s) (rep' : Represents l v s')
    (h : Heap) : PagesRefused s h ↔ PagesRefused s' h := by
  rw [PagesRefused, PagesRefused, rep.head_none_iff, rep'.head_none_iff, rep.count, rep'.count]

variable [Leftover ℕ]

namespace Slalloc

/-- The allocator after each step of a growth: the array of pages is longer, so
is that of usemaps, the new usemap is in the list, and the pages are there or
were refused. -/
def longer (s : Slalloc w) : Slalloc w :=
  { s with pgarray := regrow Leftover.junk s.pgarray (s.blockcount + 1) }

def moved (s : Slalloc w) : Slalloc w :=
  { s.longer with
    usemaps := regrow (fun _ => .unset) s.usemaps (s.blockcount + 1)
    generation := s.generation + 1 }

def unmapped (s : Slalloc w) : Slalloc w :=
  let pd := { s.moved.pgdata s.blockcount with usemap := [], held := false }
  { s.moved with usemaps := s.moved.usemaps.set s.blockcount pd }

def newPgdata (s : Slalloc w) : Pgdata w :=
  ⟨List.replicate s.layout.objwordsperblock 0, true, s.layout.objsperblock, s.nonfullUsemaps⟩

def linked (s : Slalloc w) : Slalloc w :=
  { s.moved with
    usemaps := s.moved.usemaps.set s.blockcount s.newPgdata
    nonfullUsemaps := some ⟨s.generation + 1, s.blockcount⟩ }

def grown (base : ℕ+) (s : Slalloc w) : Slalloc w :=
  { s.linked with
    pgarray := s.linked.pgarray.set s.blockcount base
    blockcount := (s.blockcount + 1) % 2 ^ 32
    bytes := zero s.bytes base s.layout.blockBytes }

def stranded (s : Slalloc w) : Slalloc w :=
  { s.linked with
    usemaps := s.linked.usemaps.set s.blockcount { s.newPgdata with held := false } }

end Slalloc

theorem initUsemap_eq (s : Slalloc w) (h : Heap) :
    initUsemap s.moved s.blockcount h =
      (if h.answer 0 then (true, s.linked) else (false, s.unmapped), h.later 1) := by
  have words : w / 8 * s.moved.layout.objwordsperblock ≠ 0 := by
    have word := s.layout.word
    exact Nat.mul_ne_zero (by omega) s.layout.objwordsperblock_pos.ne'
  rw [initUsemap, bind_apply, allocate_eq words]
  cases h.answer 0 <;> rfl

theorem resetUsemap_eq (s : Slalloc w) (h : Heap) :
    resetUsemap s.linked s.blockcount h = (s.stranded, h) := by
  have enough := le_length_regrow (fun _ => Pgdata.unset) s.usemaps (s.blockcount + 1)
  have cell : s.linked.usemaps[s.blockcount]? = some s.newPgdata :=
    List.getElem?_set_self enough
  rw [resetUsemap, pgdata_eq cell, bind_apply, visit_eq (show s.newPgdata.held = true from rfl)]
  rfl

theorem addSlallocPage_run (base : ℕ+) (s : Slalloc w)
    (more : (s.blockcount + 1) % 2 ^ 32 = s.blockcount + 1) (h : Heap) :
    addSlallocPage base s h =
      if h.answer 0 then
        if h.answer 1 then
          if h.answer 2 then
            if h.answer 3 then ((true, s.grown base), h.later 4)
            else ((false, s.stranded), h.later 4)
          else ((false, s.unmapped), h.later 3)
        else ((false, s.longer), h.later 2)
      else ((false, s), h.later 1) := by
  unfold addSlallocPage
  simp only [more, bind_apply, allocate_eq (show 8 * (s.blockcount + 1) ≠ 0 by omega)]
  cases h.answer 0 with
  | false => rfl
  | true =>
    simp only [if_true, bind_apply, allocate_eq (show 24 * (s.blockcount + 1) ≠ 0 by omega)]
    simp only [answer_later, later_later]
    cases h.answer 1 with
    | false => rfl
    | true =>
      have init := initUsemap_eq s (h.later 2)
      rw [answer_later, later_later] at init
      change (initUsemap s.moved s.blockcount >>= _) (h.later 2) = _
      rw [bind_apply, init]
      cases h.answer 2 with
      | false => rfl
      | true =>
        have pages := fistfulOfPages_eq (l := s.layout) base s.bytes (h.later 3)
        rw [answer_later, later_later] at pages
        change (fistfulOfPages base s.bytes s.layout.pgsize (uintlog2 s.layout.pagesperblock) >>= _)
          (h.later 3) = _
        rw [bind_apply, pages]
        cases h.answer 3 with
        | true => rfl
        | false =>
          change (resetUsemap s.linked s.blockcount >>= _) (h.later 4) = _
          rw [bind_apply, resetUsemap_eq]
          rfl

theorem Represents.longer (rep : Represents l v s) (empty : v.nonfull = []) :
    Represents l v s.longer := by
  have kept : ∀ b < v.count, s.longer.pgarray[b]? = s.pgarray[b]? := fun b hb => by
    rw [rep.pages b hb]
    exact getElem?_regrow _ (rep.pages b hb)
  exact rep.unlisted empty kept fun _ _ => rfl

theorem Represents.moved (rep : Represents l v s) (empty : v.nonfull = []) :
    Represents l v s.moved := by
  have kept : ∀ b < v.count, s.moved.usemaps[b]? = s.usemaps[b]? := fun b hb => by
    obtain ⟨pd, cell, -⟩ := rep.maps b hb
    rw [cell]
    exact getElem?_regrow _ cell
  exact (rep.longer empty).unlisted empty (fun _ _ => rfl) kept

theorem Represents.unmapped (rep : Represents l v s) (empty : v.nonfull = []) :
    Represents l v s.unmapped := by
  have kept : ∀ b < v.count, s.unmapped.usemaps[b]? = s.moved.usemaps[b]? := fun b hb =>
    List.getElem?_set_ne (by rw [rep.count]; omega)
  exact (rep.moved empty).unlisted empty (fun _ _ => rfl) kept

theorem Represents.grown (rep : Represents l v s) (empty : v.nonfull = []) (base : ℕ+)
    (more : (s.blockcount + 1) % 2 ^ 32 = s.blockcount + 1) :
    Represents l (v.grow l base) (s.grown base) where
  layout := rep.layout
  bytes := by
    rw [← rep.layout, Slabs.grow, ← rep.bytes]
    rfl
  count := more.trans (congrArg (· + 1) rep.count)
  small := by
    change v.count + 1 < 2 ^ 32
    rw [rep.count] at more
    omega
  pages b hb := by
    have enough := le_length_regrow Leftover.junk s.pgarray (s.blockcount + 1)
    change ((regrow Leftover.junk s.pgarray (s.blockcount + 1)).set s.blockcount base)[b]? =
      some (Function.update v.base v.count base b : ℕ)
    rw [rep.count] at enough ⊢
    by_cases new : b = v.count
    · subst new
      rw [Function.update_self, List.getElem?_set_self (by omega)]
    · have old : b < v.count := Nat.lt_of_le_of_ne (Nat.le_of_lt_succ hb) new
      rw [Function.update_of_ne new, List.getElem?_set_ne (Ne.symm new),
        getElem?_regrow _ (rep.pages b old)]
  maps b hb := by
    have enough := le_length_regrow (fun _ => Pgdata.unset) s.usemaps (s.blockcount + 1)
    change ∃ pd, ((regrow (fun _ => .unset) s.usemaps (s.blockcount + 1)).set s.blockcount
      s.newPgdata)[b]? = some pd ∧ pd.Tracks l (Function.update v.used v.count ∅ b)
    rw [rep.count] at enough ⊢
    by_cases new : b = v.count
    · subst new
      rw [Function.update_self]
      refine ⟨_, List.getElem?_set_self (by omega), ?_⟩
      rw [Slalloc.newPgdata, rep.layout]
      exact tracks_empty _
    · have old : b < v.count := Nat.lt_of_le_of_ne (Nat.le_of_lt_succ hb) new
      obtain ⟨pd, cell, tracks⟩ := rep.maps b old
      rw [Function.update_of_ne new]
      exact ⟨pd, by rw [List.getElem?_set_ne (Ne.symm new), getElem?_regrow _ cell], tracks⟩
  nonfull := by
    have enough := le_length_regrow (fun _ => Pgdata.unset) s.usemaps (s.blockcount + 1)
    have cell : (s.grown base).usemaps[s.blockcount]? = some s.newPgdata :=
      List.getElem?_set_self enough
    have link : s.newPgdata.nextNonfull = none := rep.head_none_iff.mpr empty
    rw [Slalloc.Nonfull, Slabs.grow, empty, List.map_cons, ← rep.count]
    refine ⟨rfl, none, ?_, rfl⟩
    rw [Slalloc.follow, if_pos rfl, cell, Option.map_some, link]

/-- Growth either adds a block or leaves everything as it was. -/
theorem addSlallocPage_eq (rep : Represents l v s) (empty : v.nonfull = []) (base : ℕ+) (h : Heap)
    (granted : ¬ PagesRefused s h) :
    ∃ s', addSlallocPage base s h = (((acquire l v.count h).1, s'), (acquire l v.count h).2) ∧
      Represents l (if (acquire l v.count h).1 then v.grow l base else v) s' := by
  have none := rep.head_none_iff.mpr empty
  by_cases wraps : (s.blockcount + 1) % 2 ^ 32 = 0
  · have refused : acquire l v.count h = (false, h) := by
      rw [← rep.count]
      simp only [acquire, wraps, Nat.mul_zero, allocate, if_true, bind_apply, pure_apply]
      rfl
    refine ⟨s, ?_, by rwa [refused]⟩
    rw [refused]
    simp only [addSlallocPage, wraps, Nat.mul_zero, allocate, if_true, bind_apply, pure_apply]
    rfl
  · have more : (s.blockcount + 1) % 2 ^ 32 = s.blockcount + 1 := by
      have := rep.small
      have := rep.count
      omega
    rw [addSlallocPage_run base s more, ← rep.count, acquire_eq l more]
    cases first : h.answer 0 with
    | false => exact ⟨s, rfl, rep⟩
    | true =>
      cases second : h.answer 1 with
      | false => exact ⟨s.longer, rfl, rep.longer empty⟩
      | true =>
        cases third : h.answer 2 with
        | false => exact ⟨s.unmapped, rfl, rep.unmapped empty⟩
        | true =>
          cases fourth : h.answer 3 with
          | false => exact absurd ⟨none, wraps, first, second, third, fourth⟩ granted
          | true => exact ⟨s.grown base, rfl, rep.grown empty base more⟩

end Growth

def Slabs.new (l : Layout w) (base : ℕ+) (v : Slabs) : Request (Option Place × Slabs) :=
  match v.nonfull with
  | b :: rest => pure (some (v.next b), v.grant l b rest)
  | [] => do
    let ok ← acquire l v.count
    if ok then pure (some (v.count, 0), (v.grow l base).grant l v.count []) else pure (none, v)

theorem Slabs.new_nil (head : v.nonfull = []) {base : ℕ+} {h : Heap} : v.new l base h =
    (if (acquire l v.count h).1 = true
      then (some (v.count, 0), (v.grow l base).grant l v.count []) else (none, v),
      (acquire l v.count h).2) := by
  rw [Slabs.new, head]
  change (if (acquire l v.count h).1 = true then _ else _ : Request _) (acquire l v.count h).2 = _
  split <;> rfl

theorem Slabs.new_none {base : ℕ+} {h : Heap} (none : (v.new l base h).1.1 = none) :
    (v.new l base h).1.2 = v := by
  cases head : v.nonfull with
  | nil =>
    rw [Slabs.new_nil head] at none ⊢
    cases ok : (acquire l v.count h).1 with
    | false => rfl
    | true => simp [ok] at none
  | cons b rest =>
    rw [Slabs.new, head] at none
    cases none

theorem next_grow (l : Layout w) (base : ℕ+) (v : Slabs) :
    (v.grow l base).next v.count = (v.count, 0) := by
  have zero : lowest ∅ = 0 := (Nat.find_eq_zero _).mpr (Finset.notMem_empty 0)
  simp [Slabs.next, Slabs.grow, zero]

theorem slallocNew_eq [Leftover ℕ] (rep : Represents l v s) (sound : Sound l v) (base : ℕ+) (h : Heap)
    (granted : ¬ PagesRefused s h) :
    ∃ s', slallocNew base s h =
        (((v.new l base h).1.1.map ((v.new l base h).1.2.address l), s'), (v.new l base h).2) ∧
      Represents l (v.new l base h).1.2 s' := by
  cases head : v.nonfull with
  | cons b rest =>
    obtain ⟨hb, room⟩ := (sound.listed b).mp (by simp [head])
    obtain ⟨s', taken, rep'⟩ := takeFirstUnused_eq rep head hb room h
    have given : v.new l base h = ((some (v.next b), v.grant l b rest), h) := by
      rw [Slabs.new, head]
      rfl
    rw [given, slallocNew, bind_apply, taken]
    exact ⟨s', rfl, rep'⟩
  | nil =>
    obtain ⟨s₁, added, rep₁⟩ := addSlallocPage_eq rep head base h granted
    rw [Slabs.new_nil head, slallocNew, bind_apply, takeFirstUnused_none rep head]
    change ∃ s', (addSlallocPage base s >>= _) h = _ ∧ _
    rw [bind_apply, added]
    cases ok : (acquire l v.count h).1 with
    | false =>
      rw [ok] at rep₁
      exact ⟨s₁, rfl, rep₁⟩
    | true =>
      rw [ok, if_pos rfl] at rep₁
      have room : ((v.grow l base).used v.count).card < l.objsperblock := by
        simpa [Slabs.grow] using l.objsperblock_pos
      obtain ⟨s', taken, rep'⟩ := takeFirstUnused_eq rep₁
        (show (v.grow l base).nonfull = v.count :: [] by rw [Slabs.grow, head])
        (Nat.lt_succ_self _) room (acquire l v.count h).2
      rw [next_grow] at taken
      exact ⟨s', taken, rep'⟩

/-- A refusal of the pages leaves the new block in the list and its usemap freed. -/
theorem slallocNew_refused [Leftover ℕ] {h : Heap} (refused : PagesRefused s h)
    (small : s.blockcount < 2 ^ 32) (base : ℕ+) :
    slallocNew base s h = ((none, s.stranded), h.later 4) := by
  obtain ⟨none, wraps, first, second, third, fourth⟩ := refused
  have more : (s.blockcount + 1) % 2 ^ 32 = s.blockcount + 1 := by omega
  have taken : takeFirstUnused s h = ((.none, s), h) := by
    rw [takeFirstUnused, none]
    rfl
  rw [slallocNew, bind_apply, taken]
  change (addSlallocPage base s >>= _) h = _
  rw [bind_apply, addSlallocPage_run base s more, if_pos first, if_pos second, if_pos third,
    if_neg (by simp [fourth])]
  rfl

theorem findBlockIdx_eq (rep : Represents l v s) (sound : Sound l v) {p : Place}
    (used : v.Uses p) : findBlockIdx s (v.address l p) = p.1 := by
  obtain ⟨hb, inside⟩ := sound.within p used
  obtain ⟨lt, base⟩ := List.getElem?_eq_some_iff.mp (rep.pages _ hb)
  have here := l.extent_subset_region inside (l.start_mem_extent (v.address l p))
  have bytes : s.blockBytes = l.blockBytes := by
    rw [Slalloc.blockBytes, rep.layout]
    rfl
  rw [findBlockIdx, List.findIdx_eq lt, base, bytes]
  refine ⟨by simpa [Layout.region] using here, fun j before => ?_⟩
  have old := before.trans hb
  obtain ⟨_, base⟩ := List.getElem?_eq_some_iff.mp (rep.pages _ old)
  have other := Set.disjoint_right.mp (sound.apart _ old _ hb before.ne) here
  rw [base]
  by_contra found
  exact other (by simpa [Layout.region] using found)

theorem Represents.release (rep : Represents l v s) {p : Place}
    {pd : Pgdata w} (cell : s.usemaps[p.1]? = some pd) (usemap : List (BitVec w))
    (tracks : Pgdata.Tracks l { pd with
      usemap, unallocated := pd.unallocated + 1,
      nextNonfull := if pd.unallocated = 0 then s.nonfullUsemaps else pd.nextNonfull }
      ((v.used p.1).erase p.2))
    (unlisted : pd.unallocated = 0 → p.1 ∉ v.nonfull)
    (full : pd.unallocated = 0 ↔ (v.used p.1).card = l.objsperblock) :
    Represents l (v.release l p) { s with
      bytes := zero v.bytes (v.address l p) l.objsize
      usemaps := s.usemaps.set p.1 { pd with
        usemap, unallocated := pd.unallocated + 1,
        nextNonfull := if pd.unallocated = 0 then s.nonfullUsemaps else pd.nextNonfull }
      nonfullUsemaps := if pd.unallocated = 0 then some ⟨s.generation, p.1⟩
        else s.nonfullUsemaps } where
  layout := rep.layout
  bytes := rfl
  count := rep.count
  small := rep.small
  pages := rep.pages
  maps := rep.maps_set cell tracks
  nonfull := by
    have links := rep.nonfull
    by_cases was : pd.unallocated = 0
    · simp only [Slalloc.Nonfull, Slabs.release, if_pos was, if_pos (full.mp was), List.map_cons]
      refine ⟨rfl, s.nonfullUsemaps, by rw [follow_set_self cell], links.frame ?_⟩
      intro map mem
      obtain ⟨b, listed, rfl⟩ := List.mem_map.mp mem
      exact follow_set _ fun same => unlisted was (same ▸ listed)
    · simp only [Slalloc.Nonfull, Slabs.release, if_neg was, if_neg (full.not.mp was)]
      rw [follow_set_same cell (by rfl)]
      exact links

theorem slallocFree_eq (rep : Represents l v s) (sound : Sound l v) {p : Place}
    (used : v.Uses p) (h : Heap) :
    ∃ s', slallocFree s (v.address l p) h = (s', h) ∧ Represents l (v.release l p) s' := by
  obtain ⟨hb, inside⟩ := sound.within p used
  obtain ⟨pd, cell, tracks⟩ := rep.maps _ hb
  have word := l.word
  have pos : 0 < w := by omega
  have small := l.objsperblock_lt
  have count := tracks.unallocated
  have lt := Nat.mod_lt p.2 pos
  have split := Nat.div_add_mod' p.2 w
  have base : s.pgarray.getD p.1 0 = v.base p.1 := by
    rw [List.getD_eq_getElem?_getD, rep.pages _ hb, Option.getD_some]
  have distance : v.address l p - v.base p.1 = l.offset p.2 := Nat.add_sub_cancel_left _ _
  have room : p.2 / w < pd.usemap.length := by
    rw [tracks.words]
    exact Nat.div_lt_of_lt_mul (inside.trans_le l.objsperblock_le_words)
  have marked := marked_and_not room lt
  rw [split, tracks.marks] at marked
  have card := Finset.card_erase_of_mem used.2
  have some_ := Finset.card_pos.mpr ⟨p.2, used.2⟩
  have unlisted : pd.unallocated = 0 → p.1 ∉ v.nonfull := fun full listed => by
    have := ((sound.listed _).mp listed).2
    omega
  refine ⟨_, ?_, rep.release cell (pd.usemap.modify (p.2 / w)
    (· &&& ~~~BitVec.twoPow w (p.2 % w))) ⟨tracks.held, (List.length_modify _ _ _).trans tracks.words,
      marked, by dsimp only; omega⟩ unlisted (by omega)⟩
  have wrap : (pd.unallocated + 1) % 2 ^ 32 = pd.unallocated + 1 := by omega
  unfold slallocFree
  simp only [findBlockIdx_eq rep sound used, bind_apply, pgdata_eq cell, visit_eq tracks.held, base,
    distance, rep.layout, l.index_of_offset, wrap, rep.bytes]
  rfl

end Libdank.SlabAllocator
