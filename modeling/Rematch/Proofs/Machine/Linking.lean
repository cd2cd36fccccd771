import Rematch.Proofs.Machine.Decoding

/-!
Linking of code. The places for labels are kept apart by the way code is built, so that they can be
filled in any order: `Code.Built.link_exact` says what stands where, and that a failure leaves
no trace.
-/

namespace Rematch.Machine

open List Label

/-- A place for a label. -/
structure Site where
  position : Nat
  isAbsolute : Bool
  label : Nat

namespace Site

def width (site : Site) : Nat := if site.isAbsolute then 8 else 4

def Covers (site : Site) (index : Nat) : Prop :=
  site.position ≤ index ∧ index < site.position + site.width

def content (site : Site) (base offset : Nat) : Bytes :=
  if site.isAbsolute then imm64 (base + offset) else imm32 ((offset : Int) - site.position - 4)

theorem length_content (site : Site) (b k : Nat) : (site.content b k).length = site.width := by
  unfold content width
  split <;> exact length_littleEndian ..

theorem number_content (site : Site) (b k : Nat) :
    (number (site.content b k) : Int) = if site.isAbsolute then ((b : Int) + k) % 2 ^ 64
      else ((k : Int) - site.position - 4) % 2 ^ 32 := by
  unfold content
  split
  · simp [imm64, number_littleEndian]
  · simp [imm32, number_littleEndian]
    omega

end Site

def Fragment.site? (position : Nat) : Fragment Nat → Option Site
  | .bytes _ => none
  | .absolute label => some ⟨position, true, label⟩
  | .relative label => some ⟨position, false, label⟩

/-- What is written for a label, and where. -/
def Label.writes (base : Nat) (label : Label) : List (Nat × Bytes) :=
  label.absolute.map (fun (site : Nat) => (site, imm64 (base + label.offset.getD 0))) ++
    label.relative.map fun (site : Nat) => (site, imm32 ((label.offset.getD 0 : Int) - site - 4))

theorem Label.mem_writes {b : Nat} {l : Label} {w : Nat × Bytes} (i : Nat) :
    w ∈ l.writes b ↔ ∃ p abs, p ∈ (if abs then l.absolute else l.relative) ∧
        w = (p, Site.content ⟨p, abs, i⟩ b (l.offset.getD 0)) := by
  constructor
  · intro wr
    rcases mem_append.mp wr with absolute | relative
    · obtain ⟨p, mem, rfl⟩ := mem_map.mp absolute
      exact ⟨p, true, mem, rfl⟩
    · obtain ⟨p, mem, rfl⟩ := mem_map.mp relative
      exact ⟨p, false, mem, rfl⟩
  · rintro ⟨p, abs, mem, rfl⟩
    cases abs with
    | true => exact mem_append_left _ (mem_map.mpr ⟨p, mem, rfl⟩)
    | false => exact mem_append_right _ (mem_map.mpr ⟨p, mem, rfl⟩)

namespace Code

/-- Code that is built by making labels, marking them once, and appending bytes and places for the
labels of the code. The places are listed, the last one first. -/
inductive Built : Code → List Site → Prop where
  | empty : Built {} []
  | newLabel {code sites} (built : Built code sites) (name : String) :
      Built (code.newLabel name) sites
  | mark {code marked sites} (built : Built code sites) {label}
      (own : label < code.labels.size) (marks : code.mark label = .ok marked) : Built marked sites
  | append {code sites} (built : Built code sites) (fragment : Fragment Nat)
      (own : ∀ site ∈ fragment.site? code.size, site.label < code.labels.size) :
      Built (code.append fragment) ((fragment.site? code.size).toList ++ sites)

variable {code : Code} {sites : List Site}

/-- Where the labels of code are referred to. -/
def positions (code : Code) (isAbsolute : Bool) (index : Nat) : List Nat :=
  code.labels[index]?.elim [] fun label => if isAbsolute then label.absolute else label.relative

theorem positions_newLabel (c : Code) (nm : String) : (c.newLabel nm).positions = c.positions := by
  funext abs i
  simp only [positions, newLabel, Array.getElem?_push]
  split
  · next last => simp [last]
  · rfl

theorem positions_place (c : Code) (l : Nat) : (c.place l).positions = c.positions := by
  funext abs i
  simp only [positions, place, modifyLabel, Array.getElem?_modify]
  split
  · cases c.labels[i]? <;> rfl
  · rfl

variable {p : Nat} {bs : Bytes}

theorem mem_positions_append {fg : Fragment Nat} {abs : Bool} {i : Nat}
    (own : ∀ site ∈ fg.site? code.size, site.label < code.labels.size) :
    p ∈ (code.append fg).positions abs i ↔
      fg.site? code.size = some ⟨p, abs, i⟩ ∨ p ∈ code.positions abs i := by
  cases fg with
  | bytes => simp [append, appendBytes, positions, Fragment.site?]
  | absolute l | relative l =>
    have le := own _ rfl
    simp only [append, appendBytes, modifyLabel, positions, Array.getElem?_modify, Fragment.site?,
      Option.some.injEq, Site.mk.injEq]
    by_cases here : l = i
    · subst here
      rw [if_pos rfl, Array.getElem?_eq_getElem le]
      cases abs <;> simp [eq_comm]
    · simp [here]

/-- The labels of code know the given places, which lie apart from each other in the buffer. -/
structure Tracks (code : Code) (sites : List Site) : Prop where
  mem_positions : ∀ isAbsolute index position,
    position ∈ code.positions isAbsolute index ↔ ⟨position, isAbsolute, index⟩ ∈ sites
  inside : ∀ site ∈ sites, site.position + site.width ≤ code.size
  apart : ∀ first ∈ sites, ∀ second ∈ sites, ∀ index, first.Covers index → second.Covers index →
    first = second

theorem size_append (c : Code) (fg : Fragment Nat) :
    (c.append fg).size = c.size + fg.zeroed.length := by
  have buffer := congrArg List.length (c.buffer_append fg)
  rwa [length_append] at buffer

theorem Built.tracks (built : code.Built sites) : code.Tracks sites := by
  induction built with
  | empty => exact ⟨by simp [positions], by simp, by simp⟩
  | newLabel _ nm tracks =>
    exact ⟨by rw [positions_newLabel]; exact tracks.mem_positions, tracks.inside, tracks.apart⟩
  | @mark c marked sites _ l own marks tracks =>
    have marked_eq : marked = c.place l := by
      rw [Code.mark, Array.getElem?_eq_getElem own] at marks
      dsimp only at marks
      split at marks
      · simp at marks
      · exact (Except.ok.inj marks).symm
    rw [marked_eq]
    exact ⟨by rw [positions_place]; exact tracks.mem_positions, tracks.inside, tracks.apart⟩
  | @append c sites _ fg own tracks =>
    have ends : ∀ site ∈ fg.site? c.size, site.position = c.size ∧
        site.position + site.width = (c.append fg).size := by
      intro site made
      rw [size_append]
      cases fg with
      | bytes => simp [Fragment.site?] at made
      | absolute | relative =>
        cases made
        exact ⟨rfl, rfl⟩
    have apart {new old : Site} {i : Nat} (made : new ∈ fg.site? c.size)
        (mem : old ∈ sites) (covers : new.Covers i) (covers' : old.Covers i) : False := by
      have lt := tracks.inside old mem
      have start := (ends new made).1
      unfold Site.Covers at covers covers'
      omega
    refine ⟨fun abs i p => ?_, fun site mem => ?_, ?_⟩
    · rw [mem_positions_append own, tracks.mem_positions, mem_append, Option.mem_toList]
    · rcases mem_append.mp mem with new | old
      · exact Nat.le_of_eq (ends site (Option.mem_toList.mp new)).2
      · rw [size_append]
        exact Nat.le_add_right_of_le (tracks.inside site old)
    · intro a mem b mem' i covers covers'
      rw [mem_append, Option.mem_toList] at mem mem'
      rcases mem with made | mem
      · rcases mem' with made' | mem'
        · exact Option.mem_unique made made'
        · exact (apart made mem' covers covers').elim
      · rcases mem' with made' | mem'
        · exact (apart made' mem covers' covers).elim
        · exact tracks.apart a mem b mem' i covers covers'

theorem foldl_resolve (b : Nat) (labels : Array Label) (t : Array UInt8) :
    labels.foldl (resolve b) t = (labels.toList.flatMap (writes b)).foldl
      (fun t w => patch t w.1 w.2) t := by
  rw [foldl_flatMap, ← Array.foldl_toList]
  congr 1
  funext t l
  rw [writes, foldl_append, foldl_map, foldl_map]
  rfl

theorem Tracks.mem_writes (tracks : code.Tracks sites) {b : Nat} {w : Nat × Bytes} :
    w ∈ code.labels.toList.flatMap (writes b) ↔ ∃ site ∈ sites,
      w = (site.position, site.content b ((code.offset? site.label).getD 0)) := by
  rw [mem_flatMap]
  constructor
  · rintro ⟨l, mem, wr⟩
    obtain ⟨i, got⟩ := Array.mem_iff_getElem?.mp (Array.mem_toList_iff.mp mem)
    obtain ⟨p, abs, referred, rfl⟩ := (Label.mem_writes i).mp wr
    refine ⟨⟨p, abs, i⟩, (tracks.mem_positions ..).mp ?_, ?_⟩
    · simpa [positions, got] using referred
    · simp [offset?, got]
  · rintro ⟨⟨p, abs, i⟩, mem, rfl⟩
    have referred := (tracks.mem_positions ..).mpr mem
    cases got : code.labels[i]? with
    | none => simp [positions, got] at referred
    | some l =>
      refine ⟨l, Array.mem_toList_iff.mpr (Array.mem_of_getElem? got),
        (Label.mem_writes i).mpr ⟨p, abs, ?_, ?_⟩⟩
      · simpa [positions, got] using referred
      · simp [offset?, got]

theorem size_patch (t : Array UInt8) (p : Nat) (bs : Bytes) : (patch t p bs).size = t.size := by
  induction bs generalizing t p with
  | nil => rfl
  | cons b r ih => rw [patch, ih, Array.size_setIfInBounds]

theorem getElem?_patch_of_not {i : Nat} (t : Array UInt8) (outside : ¬(p ≤ i ∧ i < p + bs.length)) :
    (patch t p bs)[i]? = t[i]? := by
  induction bs generalizing t p with
  | nil => rfl
  | cons b r ih =>
    rw [length_cons] at outside
    rw [patch, ih _ (by omega)]
    exact Array.getElem?_setIfInBounds_ne (by omega)

theorem getElem?_patch {n : Nat} (t : Array UInt8)
    (lt : p + bs.length ≤ t.size) (within : n < bs.length) : (patch t p bs)[p + n]? = bs[n]? := by
  induction bs generalizing t p n with
  | nil => simp at within
  | cons b r ih =>
    rw [length_cons] at lt within
    rw [patch]
    cases n with
    | zero =>
      rw [getElem?_patch_of_not _ (by omega), Nat.add_zero,
        Array.getElem?_setIfInBounds_self_of_lt (by omega)]
      rfl
    | succ n =>
      rw [Nat.add_left_comm, Nat.add_comm n, ih _ (by simp; omega) (by omega)]
      rfl

section Writes

variable {writes : List (Nat × Bytes)} {i : Nat}

theorem size_foldl_patch (t : Array UInt8) :
    (writes.foldl (fun t w => patch t w.1 w.2) t).size = t.size := by
  induction writes generalizing t with
  | nil => rfl
  | cons w r ih => rw [foldl_cons, ih, size_patch]

theorem getElem?_foldl_patch_of_not (t : Array UInt8)
    (outside : ∀ w ∈ writes, ¬(w.1 ≤ i ∧ i < w.1 + w.2.length)) :
    (writes.foldl (fun t w => patch t w.1 w.2) t)[i]? = t[i]? := by
  induction writes generalizing t with
  | nil => rfl
  | cons w r ih =>
    rw [foldl_cons, ih _ fun o mem => outside o (.tail _ mem),
      getElem?_patch_of_not _ (outside w (.head _))]

/-- Where all that is written at an index is the same, the order does not matter. -/
theorem getElem?_foldl_patch {b : UInt8} {t : Array UInt8}
    (lt : ∀ w ∈ writes, w.1 + w.2.length ≤ t.size)
    (agree : ∀ w ∈ writes, ∀ n < w.2.length, i = w.1 + n → w.2[n]? = some b)
    (wr : t[i]? = some b ∨ ∃ w ∈ writes, w.1 ≤ i ∧ i < w.1 + w.2.length) :
    (writes.foldl (fun t w => patch t w.1 w.2) t)[i]? = some b := by
  induction writes generalizing t with
  | nil => simpa using wr
  | cons w r ih =>
    refine ih (fun o mem => ?_) (fun o mem => agree o (.tail _ mem)) ?_
    · rw [size_patch]
      exact lt o (.tail _ mem)
    by_cases here : w.1 ≤ i ∧ i < w.1 + w.2.length
    · obtain ⟨n, rfl⟩ := Nat.exists_eq_add_of_le here.1
      left
      rw [getElem?_patch t (lt w (.head _)) (by omega)]
      exact agree w (.head _) n (by omega) rfl
    · rw [getElem?_patch_of_not t here]
      refine wr.imp_right fun ⟨o, mem, covered⟩ => ?_
      rcases mem_cons.mp mem with rfl | later
      · exact absurd covered here
      · exact ⟨o, later, covered⟩

end Writes

/-- A destination after the code was copied to its front, and after it was linked. -/
def copied (code : Code) (destination : Array UInt8) : Array UInt8 :=
  code.buffer ++ destination.extract code.size destination.size

def filled (code : Code) (base : Nat) (destination : Array UInt8) : Array UInt8 :=
  code.labels.foldl (resolve base) (code.copied destination)

theorem linkInto_eq (c : Code) (dst : Array UInt8) (b : Nat) : (c.linkInto b).run dst =
      if dst.size < c.size then
        .error (.tooSmall dst.size c.size) dst
      else match c.labels.find? isUnresolved with
        | some l => .error (.unresolved l.render) dst
        | none => .ok () (c.filled b dst) := by
  unfold linkInto
  cases c.labels.find? isUnresolved <;>
  · change (if dst.size < c.size then _ else _ : EStateM _ _ _).run dst = _
    split <;> rfl

section Linked

variable (tracks : code.Tracks sites) {dst : Array UInt8} (b : Nat) {i : Nat}
include tracks

theorem Tracks.find?_isUnresolved : code.labels.find? isUnresolved = none ↔
    ∀ site ∈ sites, code.offset? site.label ≠ none := by
  rw [Array.find?_eq_none]
  constructor
  · rintro resolved ⟨p, abs, i⟩ mem unmarked
    have referred := (tracks.mem_positions ..).mpr mem
    cases got : code.labels[i]? with
    | none => simp [positions, got] at referred
    | some l =>
      refine resolved l (Array.mem_of_getElem? got) ?_
      have offset : l.offset = none := by simpa [offset?, got] using unmarked
      have some := ne_nil_of_mem (by simpa [positions, got] using referred)
      cases abs <;> simp_all [isUnresolved]
  · intro marked l mem unresolved
    obtain ⟨i, got⟩ := Array.mem_iff_getElem?.mp mem
    simp only [isUnresolved, Bool.and_eq_true, Option.isNone_iff_eq_none, Bool.or_eq_true,
      Bool.not_eq_true', isEmpty_eq_false_iff] at unresolved
    have site {abs : Bool} {p : Nat} (referred : p ∈
        if abs then l.absolute else l.relative) : False :=
      marked _ ((tracks.mem_positions abs i p).mp
        (by simpa [positions, got] using referred)) (by simpa [offset?, got] using unresolved.1)
    rcases unresolved.2 with absolute | relative
    · exact @site true _ (head_mem absolute)
    · exact @site false _ (head_mem relative)

theorem Tracks.getElem?_filled_of_not (outside : ∀ site ∈ sites, ¬site.Covers i) :
    (code.filled b dst)[i]? = (code.copied dst)[i]? := by
  rw [filled, foldl_resolve]
  refine getElem?_foldl_patch_of_not _ fun w wr => ?_
  obtain ⟨site, mem, rfl⟩ := tracks.mem_writes.mp wr
  rw [Site.length_content]
  exact outside site mem

variable (room : code.size ≤ dst.size)
include room

omit tracks in
theorem size_copied : (code.copied dst).size = dst.size := by
  simp only [copied, Array.size_append, Array.size_extract, Nat.min_self]
  exact Nat.add_sub_of_le room

omit tracks in
theorem size_filled : (code.filled b dst).size = dst.size := by
  rw [filled, foldl_resolve, size_foldl_patch, size_copied room]

variable {site : Site}

theorem Tracks.getElem?_filled (mem : site ∈ sites) {n : Nat}
    (within : n < site.width) : (code.filled b dst)[site.position + n]? =
      (site.content b ((code.offset? site.label).getD 0))[n]? := by
  have covers : site.Covers (site.position + n) := ⟨by omega, by omega⟩
  rw [filled, foldl_resolve, getElem?_eq_getElem (by rwa [Site.length_content])]
  refine getElem?_foldl_patch (fun w wr => ?_) (fun w wr m few eq => ?_)
    (.inr ⟨_, tracks.mem_writes.mpr ⟨site, mem, rfl⟩, ?_⟩)
  · obtain ⟨o, mem', rfl⟩ := tracks.mem_writes.mp wr
    rw [Site.length_content, size_copied room]
    exact Nat.le_trans (tracks.inside o mem') room
  · obtain ⟨o, mem', rfl⟩ := tracks.mem_writes.mp wr
    rw [Site.length_content] at few
    obtain rfl := tracks.apart site mem o mem' _ covers
      (by rw [eq]; exact ⟨Nat.le_add_right .., Nat.add_lt_add_left few _⟩)
    obtain rfl := Nat.add_left_cancel eq
    exact getElem?_eq_getElem _
  · rw [Site.length_content]
    exact covers

theorem Tracks.extract_filled (mem : site ∈ sites) :
    ((code.filled b dst).extract site.position (site.position + site.width)).toList =
      site.content b ((code.offset? site.label).getD 0) := by
  have lt := Nat.le_trans (tracks.inside site mem) room
  refine ext_getElem? fun n => ?_
  rw [Array.getElem?_toList, Array.getElem?_extract, size_filled b room, Nat.min_eq_left lt,
    Nat.add_sub_cancel_left]
  split
  · next within => exact tracks.getElem?_filled b room mem within
  · next beyond =>
    exact (getElem?_eq_none (by rw [Site.length_content]; exact Nat.le_of_not_lt beyond)).symm

end Linked

/-- Linking fails if and only if the destination is too small or a label that is referred to was
never marked, and then leaves the destination alone. Otherwise the code stands at the front of the
destination, with the addresses and distances of labels in their places and nothing else changed,
and another base changes nothing but the addresses. -/
theorem Built.link_exact (built : code.Built sites) (destination : Array UInt8) (base : Nat) :
    (destination.size < code.size ∨ (∃ site ∈ sites, code.offset? site.label = none) →
      ∃ error, (code.linkInto base).run destination = .error error destination) ∧
    (code.size ≤ destination.size → (∀ site ∈ sites, code.offset? site.label ≠ none) →
      ∃ linked, (code.linkInto base).run destination = .ok () linked ∧
        linked.size = destination.size ∧
        (∀ index, code.size ≤ index → linked[index]? = destination[index]?) ∧
        (∀ index < code.size, (∀ site ∈ sites, ¬site.Covers index) →
          linked[index]? = code.buffer[index]?) ∧
        (∀ site ∈ sites, ∀ offset, code.offset? site.label = some offset →
          (number (linked.extract site.position (site.position + site.width)).toList : Int) =
            if site.isAbsolute then ((base : Int) + offset) % 2 ^ 64
            else ((offset : Int) - site.position - 4) % 2 ^ 32) ∧
        ∀ base' linked', (code.linkInto base').run destination = .ok () linked' →
          ∀ index, (∀ site ∈ sites, site.isAbsolute → ¬site.Covers index) →
            linked'[index]? = linked[index]?) := by
  have tracks := built.tracks
  refine ⟨fun fails => ?_, fun room resolved => ?_⟩
  · rw [linkInto_eq]
    split
    · exact ⟨_, rfl⟩
    · next room =>
      obtain ⟨site, listed, unmarked⟩ := fails.resolve_left room
      split
      · exact ⟨_, rfl⟩
      · next none => exact absurd unmarked (tracks.find?_isUnresolved.mp none site listed)
  have linked (base : Nat) :
      (code.linkInto base).run destination = .ok () (code.filled base destination) := by
    rw [linkInto_eq, if_neg (Nat.not_lt.mpr room), tracks.find?_isUnresolved.mpr resolved]
  refine ⟨_, linked base, ?_, fun index beyond => ?_, fun index within outside => ?_,
    fun site listed offset marked => ?_, fun base' linked' again index relative => ?_⟩
  · exact size_filled base room
  · have outside : ∀ site ∈ sites, ¬site.Covers index := fun site listed covers =>
      absurd (tracks.inside site listed) (by unfold Site.Covers at covers; omega)
    have index_eq : code.size + (index - code.buffer.size) = index := Nat.add_sub_of_le beyond
    rw [tracks.getElem?_filled_of_not base outside, copied, Array.getElem?_append_right beyond,
      Array.getElem?_extract, Nat.min_self, index_eq]
    split
    · rfl
    · exact (Array.getElem?_eq_none (by omega)).symm
  · rw [tracks.getElem?_filled_of_not base outside, copied, Array.getElem?_append_left within]
  · rw [tracks.extract_filled base room listed, marked, Option.getD_some, Site.number_content]
  · obtain rfl : code.filled base' destination = linked' := by
      rw [linked base'] at again
      exact (EStateM.Result.ok.inj again).2
    by_cases covered : ∃ site ∈ sites, site.Covers index
    · obtain ⟨site, listed, covers⟩ := covered
      obtain ⟨count, rfl⟩ := Nat.exists_eq_add_of_le covers.1
      have within := Nat.lt_of_add_lt_add_left covers.2
      rw [tracks.getElem?_filled base room listed within,
        tracks.getElem?_filled base' room listed within]
      have isRelative : site.isAbsolute = false :=
        Bool.eq_false_iff.mpr fun absolute => relative site listed absolute covers
      simp [Site.content, isRelative]
    · have apart := fun site listed covers => covered ⟨site, listed, covers⟩
      rw [tracks.getElem?_filled_of_not base apart, tracks.getElem?_filled_of_not base' apart]

/-- A loop with a jump to its begin, a jump to its end, and the address of its end. -/
def looped : Code :=
  let labelled := (newLabel {} "start").newLabel "end"
  ((((labelled.place 0).emit (.movAddr 8 1)).emit (.jcc .equal 1)).emit (.jmp 0)).place 1

/-- The loop is loaded so close to the end of the address space that the address of its end wraps
around. -/
theorem link_looped :
    let sites : List Site := [⟨17, false, 0⟩, ⟨12, false, 1⟩, ⟨2, true, 1⟩]
    looped.Built sites ∧ looped.size = 21 ∧ (∀ site ∈ sites, looped.offset? site.label ≠ none) ∧
      ∃ linked, (looped.linkInto (2 ^ 64 - 8)).run (Array.replicate 24 0xAA) = .ok () linked ∧
        linked.size = 24 ∧ (number (linked.extract 2 10).toList : Int) = 13 := by
  intro sites
  have built : looped.Built sites := by
    have labelled := (Built.empty.newLabel "start").newLabel "end"
    have loads := ((@Built.mark _ _ _ labelled 0 (by decide) rfl).append (.bytes [0x49, 0xB8])
      nofun).append (.absolute 1) (by rintro _ ⟨⟩; decide)
    have branches := (loads.append (.bytes [0x0F, 0x84]) nofun).append (.relative 1)
      (by rintro _ ⟨⟩; decide)
    have jumps := (branches.append (.bytes [0xE9]) nofun).append (.relative 0)
      (by rintro _ ⟨⟩; decide)
    exact @Built.mark _ _ _ jumps 1 (by decide) rfl
  have marked : ∀ site ∈ sites, looped.offset? site.label ≠ none := by decide
  obtain ⟨linked, links, size, -, -, filled, -⟩ :=
    (built.link_exact (Array.replicate 24 0xAA) (2 ^ 64 - 8)).2 (by decide) marked
  exact ⟨built, by decide, marked, linked, links, size,
    filled _ (.tail _ (.tail _ (.head _))) 21 rfl⟩

end Code

end Rematch.Machine
