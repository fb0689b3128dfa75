import Noxisa.BspTiling

/-!
# The compositor

The windows, the desktops and the focus, with the operations on them.  Machine
arithmetic wraps.  What the animations compute in floating point is up to
`Floats`; no result says anything about it.
-/

namespace WindowManager

/-- `type Wid = u32` -/
abbrev Wid := UInt32

/-- `SnapZone` -/
inductive SnapZone
  | left | right | top | bottom
  | topLeft | topRight | bottomLeft | bottomRight
  | center
  | thirdLeft | thirdMid | thirdRight
deriving DecidableEq

/-- `snap_rect`: halves, quarters and thirds of the screen, with their remainders at the
far edge. -/
def snapRect (zone : SnapZone) (screen : Rect) : Rect :=
  let ⟨sx, sy, sw, sh⟩ := screen
  let hw := sw / 2
  let hh := sh / 2
  let tw := sw / 3
  match zone with
  | .left => ⟨sx, sy, hw, sh⟩
  | .right => ⟨sx + hw.toInt32, sy, hw, sh⟩
  | .top => ⟨sx, sy, sw, hh⟩
  | .bottom => ⟨sx, sy + hh.toInt32, sw, hh⟩
  | .topLeft => ⟨sx, sy, hw, hh⟩
  | .topRight => ⟨sx + hw.toInt32, sy, hw, hh⟩
  | .bottomLeft => ⟨sx, sy + hh.toInt32, hw, hh⟩
  | .bottomRight => ⟨sx + hw.toInt32, sy + hh.toInt32, hw, hh⟩
  | .center => ⟨sx + (sw / 8).toInt32, sy + (sh / 8).toInt32, sw * 3 / 4, sh * 3 / 4⟩
  | .thirdLeft => ⟨sx, sy, tw, sh⟩
  | .thirdMid => ⟨sx + tw.toInt32, sy, tw, sh⟩
  | .thirdRight => ⟨sx + 2 * tw.toInt32, sy, tw, sh⟩

/-- Detect the snap zone from a position near the edges of the screen. -/
def detectSnap (px py : Int32) (screen : Rect) : Option SnapZone :=
  let t := 24
  let right := screen.x + screen.w.toInt32
  let bot := screen.y + screen.h.toInt32
  let nearL := decide (px < screen.x + t)
  let nearR := decide (px > right - t)
  let nearT := decide (py < screen.y + t)
  let nearB := decide (py > bot - t)
  match nearL, nearR, nearT, nearB with
  | true, false, true, false => some .topLeft
  | false, true, true, false => some .topRight
  | true, false, false, true => some .bottomLeft
  | false, true, false, true => some .bottomRight
  | true, false, false, false => some .left
  | false, true, false, false => some .right
  | false, false, true, false => some .top
  | false, false, false, true => some .bottom
  | _, _, _, _ => none

/-- The floating-point part of an animation. -/
structure Floats (F : Type) where
  zero : F
  /-- the `anim_speed` of a new window -/
  speed : F
  /-- `anim_t + dt * anim_speed` -/
  advance : F → F → F → F
  /-- `anim_t >= 1.0` -/
  finished : F → Bool
  /-- `lerp_rect(from, to, ease_out_cubic(anim_t.min(1.0)))` -/
  lerpRect : Rect → Rect → F → Rect

/-- Animations that end at once. -/
def still : Floats Unit where
  zero := ()
  speed := ()
  advance _ _ _ := ()
  finished _ := true
  lerpRect _ target _ := target

/-- `Rect::center` -/
def Rect.center (r : Rect) : Int32 × Int32 := (r.x + r.w.toInt32 / 2, r.y + r.h.toInt32 / 2)

/-- `Window`: its place and, while it moves, where from and where to. -/
structure Window (F : Type) where
  id : Wid
  title : String
  appId : String
  rect : Rect
  visible : Bool
  focused : Bool
  floating : Bool
  snap : Option SnapZone
  desktop : UInt32
  animFrom : Option Rect
  animTo : Option Rect
  animT : F
  animSpeed : F

section
variable {F : Type} (f : Floats F)

namespace Window

/-- `Window::new`: a new window grows out of the middle of its rectangle. -/
def new (id : Wid) (title appId : String) (rect : Rect) (desktop : UInt32) : Window F where
  id := id
  title := title
  appId := appId
  rect := rect
  visible := true
  focused := false
  floating := true
  snap := none
  desktop := desktop
  animFrom := some ⟨rect.center.1, rect.center.2, 0, 0⟩
  animTo := some rect
  animT := f.zero
  animSpeed := f.speed

/-- Advance the animation by `dt` seconds. -/
def tick (w : Window F) (dt : F) : Window F :=
  if w.animFrom.isNone then w
  else
    let animT := f.advance w.animT dt w.animSpeed
    let rect := match w.animFrom, w.animTo with
      | some source, some target => f.lerpRect source target animT
      | _, _ => w.rect
    let w := { w with animT := animT, rect := rect }
    if f.finished animT then { w with animFrom := none, animTo := none } else w

/-- Start an animated move to `target`. -/
def animateTo (w : Window F) (target : Rect) : Window F :=
  { w with animFrom := some w.rect, animTo := some target, animT := f.zero }

/-- What `retile` does with a window. -/
def tile (rect : Rect) (w : Window F) : Window F := { w.animateTo f rect with floating := false }

end Window

/-- Change the first window that satisfies `p`: `iter_mut().find(p)`. -/
def modifyFirst (p : Window F → Bool) (change : Window F → Window F) :
    List (Window F) → List (Window F)
  | [] => []
  | w :: windows => if p w then change w :: windows else w :: modifyFirst p change windows

end

/-- `Desktop` -/
structure Desktop where
  id : UInt32
  name : String

/-- `Compositor`, without what only the drawing reads. -/
structure Compositor (F : Type) where
  windows : List (Window F)
  nextWid : Wid
  desktops : List Desktop
  activeDesk : UInt32
  focused : Option Wid
  screen : Rect
  gap : Int32
  tiling : Bool

namespace Compositor

section
variable {F : Type} (f : Floats F)

/-- `Compositor::new` -/
def new (screen : Rect) : Compositor F where
  windows := []
  nextWid := 1
  desktops := [⟨0, "Desktop 1"⟩, ⟨1, "Desktop 2"⟩, ⟨2, "Desktop 3"⟩, ⟨3, "Desktop 4"⟩]
  activeDesk := 0
  focused := none
  screen := screen
  gap := 4
  tiling := false

/-- A visible window of the active desktop. -/
def onDesk (c : Compositor F) (w : Window F) : Bool := w.visible && w.desktop == c.activeDesk

/-- Re-tile the windows on the active desktop. -/
def retile (c : Compositor F) : Compositor F :=
  let indices := (c.windows.zipIdx.filter fun x => c.onDesk x.1).map Prod.snd
  let n := indices.length
  if n = 0 then c
  else
    let rects := bspRects c.screen n c.gap
    { c with
      windows := (indices.zip rects).foldl (fun windows x => windows.modify x.1 (Window.tile f x.2))
        c.windows }

/-- `focus`: the mark is taken from all windows and given to the first with the id; the
id is stored whether there is one or not. -/
def focus (c : Compositor F) (id : Wid) : Compositor F :=
  let windows := c.windows.map fun w => { w with focused := false }
  { c with
    windows := modifyFirst (·.id == id) (fun w => { w with focused := true }) windows
    focused := some id }

/-- `create_window` -/
def createWindow (c : Compositor F) (title appId : String) (rect : Rect) : Wid × Compositor F :=
  let id := c.nextWid
  let c := { c with
    nextWid := id + 1
    windows := c.windows ++ [Window.new f id title appId rect c.activeDesk] }
  let c := c.focus id
  (id, if c.tiling then c.retile f else c)

/-- `close_window`: the focused id is not looked at. -/
def closeWindow (c : Compositor F) (id : Wid) : Compositor F :=
  let windows := modifyFirst (·.id == id) (fun w => { w with visible := false }) c.windows
  let c := { c with windows := windows.filter (·.visible) }
  if c.tiling then c.retile f else c

/-- `move_window`, by the pointer: the zone that it would snap to is noted. -/
def moveWindow (c : Compositor F) (id : Wid) (dx dy : Int32) : Compositor F :=
  { c with windows := modifyFirst (·.id == id) (fun w =>
      let rect := { w.rect with x := w.rect.x + dx, y := w.rect.y + dy }
      { w with rect := rect, snap := detectSnap rect.x rect.y c.screen }) c.windows }

/-- `release_window`: a noted zone is taken. -/
def releaseWindow (c : Compositor F) (id : Wid) : Compositor F :=
  match (c.windows.find? (·.id == id)).bind (·.snap) with
  | none => c
  | some snap =>
      let target := snapRect snap c.screen
      { c with windows := modifyFirst (·.id == id) (·.animateTo f target) c.windows }

/-- `snap` -/
def snap (c : Compositor F) (id : Wid) (zone : SnapZone) : Compositor F :=
  let target := snapRect zone c.screen
  { c with
    windows := modifyFirst (·.id == id)
      (fun w => { w.animateTo f target with snap := some zone }) c.windows }

/-- `toggle_tiling` -/
def toggleTiling (c : Compositor F) : Compositor F :=
  let c := { c with tiling := !c.tiling }
  if c.tiling then c.retile f else c

/-- `switch_desktop`: a number without a desktop is ignored. -/
def switchDesktop (c : Compositor F) (n : UInt32) : Compositor F :=
  if n < c.desktops.length.toUInt32 then { c with activeDesk := n } else c

/-- Advance all animations. -/
def tick (c : Compositor F) (dt : F) : Compositor F :=
  { c with windows := c.windows.map (·.tick f dt) }

end

end Compositor

/-- An operation on the compositor. -/
inductive Op (F : Type)
  | createWindow (title appId : String) (rect : Rect)
  | closeWindow (id : Wid)
  | focus (id : Wid)
  | moveWindow (id : Wid) (dx dy : Int32)
  | releaseWindow (id : Wid)
  | snap (id : Wid) (zone : SnapZone)
  | toggleTiling
  | switchDesktop (n : UInt32)
  | tick (dt : F)

section
variable {F : Type} (f : Floats F)

/-- One operation. -/
def Compositor.step (c : Compositor F) : Op F → Compositor F
  | .createWindow title appId rect => (c.createWindow f title appId rect).2
  | .closeWindow id => c.closeWindow f id
  | .focus id => c.focus id
  | .moveWindow id dx dy => c.moveWindow id dx dy
  | .releaseWindow id => c.releaseWindow f id
  | .snap id zone => c.snap f id zone
  | .toggleTiling => c.toggleTiling f
  | .switchDesktop n => c.switchDesktop n
  | .tick dt => c.tick f dt

/-- The compositor of a screen after some operations. -/
def Compositor.run (screen : Rect) (ops : List (Op F)) : Compositor F :=
  ops.foldl (Compositor.step f) (Compositor.new screen)

/-- A run with one operation more. -/
theorem Compositor.run_append (screen : Rect) (ops : List (Op F)) (op : Op F) :
    run f screen (ops ++ [op]) = (run f screen ops).step f op := by
  unfold run
  rw [List.foldl_append]
  rfl

end

/-- What holds at the start and is kept exactly by the steps with `Q` holds all along a run
exactly if all its steps have `Q`. -/
theorem forall_prefix_iff {α : Type} {P : List α → Prop} {Q : List α → α → Prop} {ops : List α}
    (hnil : P []) (hstep : ∀ before op, before ++ [op] <+: ops → P before →
      (P (before ++ [op]) ↔ Q before op)) :
    (∀ before, before <+: ops → P before) ↔
      ∀ before op, before ++ [op] <+: ops → Q before op := by
  have hshorter : ∀ before op, before ++ [op] <+: ops → before <+: ops :=
    fun before op h => (List.prefix_append before [op]).trans h
  constructor
  · intro hall before op hop
    exact (hstep before op hop (hall before (hshorter before op hop))).mp (hall _ hop)
  · intro hall before hbefore
    induction before using List.reverseRecOn with
    | nil => exact hnil
    | append_singleton before op ih =>
        have h := ih (hshorter before op hbefore)
        exact (hstep before op hbefore h).mpr (hall before op hbefore)

section
variable {F : Type} {p : Window F → Bool} {change : Window F → Window F}

/-- Either no window satisfies `p`, or the first one that does is changed. -/
theorem modifyFirst_cases (p : Window F → Bool) (change : Window F → Window F)
    (windows : List (Window F)) :
    (∀ w ∈ windows, p w = false) ∧ modifyFirst p change windows = windows ∨
      ∃ before w later, windows = before ++ w :: later ∧ p w = true ∧
        (∀ v ∈ before, p v = false) ∧
          modifyFirst p change windows = before ++ change w :: later := by
  induction windows with
  | nil => exact Or.inl ⟨List.forall_mem_nil _, rfl⟩
  | cons w windows ih =>
      by_cases hw : p w = true
      · refine Or.inr ⟨[], w, windows, rfl, hw, List.forall_mem_nil _, ?_⟩
        rw [modifyFirst, if_pos hw]
        rfl
      · have hstep : modifyFirst p change (w :: windows) = w :: modifyFirst p change windows := by
          rw [modifyFirst, if_neg hw]
        have hfalse : p w = false := Bool.eq_false_iff.mpr hw
        rcases ih with ⟨hnone, heq⟩ | ⟨before, v, later, rfl, hv, hbefore, heq⟩
        · exact Or.inl ⟨List.forall_mem_cons.mpr ⟨hfalse, hnone⟩, by rw [hstep, heq]⟩
        · refine Or.inr ⟨w :: before, v, later, rfl, hv,
            List.forall_mem_cons.mpr ⟨hfalse, hbefore⟩, ?_⟩
          rw [hstep, heq]
          rfl

/-- Changing the first window leaves what the change does not touch. -/
theorem map_modifyFirst {γ : Type} {g : Window F → γ} (hg : ∀ w, g (change w) = g w)
    (windows : List (Window F)) : (modifyFirst p change windows).map g = windows.map g := by
  induction windows with
  | nil => rfl
  | cons w windows ih =>
      rw [modifyFirst]
      split
      · rw [List.map_cons, List.map_cons, hg]
      · rw [List.map_cons, List.map_cons, ih]

/-- What is read of some of the windows, when a change keeps both. -/
theorem map_filter_congr {γ : Type} {q : Window F → Bool} {g : Window F → γ}
    {windows windows' : List (Window F)}
    (h : windows.map (fun w => (q w, g w)) = windows'.map fun w => (q w, g w)) :
    (windows.filter q).map g = (windows'.filter q).map g := by
  have hread : ∀ windows : List (Window F), (windows.filter q).map g =
      ((windows.map fun w => (q w, g w)).filter Prod.fst).map Prod.snd := by
    intro windows
    rw [List.filter_map, List.map_map]
    rfl
  rw [hread, hread, h]

/-- `focus` leaves every part of the windows alone but the mark. -/
theorem focus_filter_map {γ : Type} {q : Window F → Bool} {g : Window F → γ}
    (hq : ∀ w focused, q { w with focused := focused } = q w)
    (hg : ∀ w focused, g { w with focused := focused } = g w) (c : Compositor F) (id : Wid) :
    ((c.focus id).windows.filter q).map g = (c.windows.filter q).map g := by
  refine map_filter_congr ?_
  unfold Compositor.focus
  dsimp only
  rw [map_modifyFirst fun w => by rw [hq, hg], List.map_map]
  refine List.map_congr_left fun w _ => ?_
  change (q { w with focused := false }, g { w with focused := false }) = _
  rw [hq, hg]

end

section
variable {α β : Type}

/-- Give the elements that satisfy `p` the values one after another. -/
def placeEach (p : α → Bool) (place : β → α → α) : List α → List β → List α
  | [], _ => []
  | a :: as, [] => a :: as
  | a :: as, b :: bs =>
      if p a then place b a :: placeEach p place as bs else a :: placeEach p place as (b :: bs)

variable {p : α → Bool} {place : β → α → α}

/-- Placing no rectangle changes nothing. -/
theorem placeEach_nil (as : List α) : placeEach p place as [] = as := by
  cases as <;> rfl

/-- The element in the middle of a list is the one that is modified. -/
private theorem modify_middle (before : List α) (a : α) (later : List α) (change : α → α) :
    (before ++ a :: later).modify before.length change = before ++ change a :: later := by
  induction before with
  | nil => rfl
  | cons b before ih => exact congrArg (b :: ·) ih

/-- Writing through the indices of the elements is giving them the values in turn. -/
theorem foldl_modify (before as : List α) (bs : List β) :
    ((((as.zipIdx before.length).filter fun x => p x.1).map Prod.snd).zip bs).foldl
        (fun as x => as.modify x.1 (place x.2)) (before ++ as) =
      before ++ placeEach p place as bs := by
  induction as generalizing before bs with
  | nil => rfl
  | cons a as ih =>
      have hsnoc : ∀ a' : α, before ++ a' :: as = (before ++ [a']) ++ as := by simp
      have hlen : ∀ a' : α, before.length + 1 = (before ++ [a']).length := by simp
      rw [List.zipIdx_cons, List.filter_cons]
      dsimp only
      by_cases ha : p a = true
      · rw [if_pos ha, List.map_cons]
        cases bs with
        | nil =>
            rw [placeEach_nil, List.zip_nil_right]
            rfl
        | cons b bs =>
            rw [List.zip_cons_cons, List.foldl_cons, modify_middle, placeEach, if_pos ha, hsnoc,
              hlen (place b a), ih, List.append_assoc]
            rfl
      · rw [if_neg ha, hsnoc, hlen a, ih, List.append_assoc]
        cases bs with
        | nil =>
            rw [placeEach_nil, placeEach_nil]
            rfl
        | cons b bs =>
            rw [placeEach, if_neg ha]
            rfl

/-- Numbering the elements does not change how many are chosen. -/
theorem length_filter_zipIdx (as : List α) (k : Nat) :
    ((as.zipIdx k).filter fun x => p x.1).length = (as.filter p).length := by
  induction as generalizing k with
  | nil => rfl
  | cons a as ih =>
      rw [List.zipIdx_cons, List.filter_cons, List.filter_cons]
      dsimp only
      split
      · rw [List.length_cons, List.length_cons, ih]
      · exact ih (k + 1)

/-- What the placing keeps. -/
theorem map_placeEach {γ : Type} {g : α → γ} (hg : ∀ b a, g (place b a) = g a) (as : List α)
    (bs : List β) : (placeEach p place as bs).map g = as.map g := by
  fun_induction placeEach p place as bs with
  | case1 => rfl
  | case2 => rfl
  | case3 a as b bs ha ih => rw [List.map_cons, List.map_cons, hg, ih]
  | case4 a as b bs ha ih => rw [List.map_cons, List.map_cons, ih]

/-- Elements of another kind stay. -/
theorem filter_placeEach {q : α → Bool} (hq : ∀ a, p a = true → q a = false)
    (hplace : ∀ b a, p a = true → q (place b a) = false) (as : List α) (bs : List β) :
    (placeEach p place as bs).filter q = as.filter q := by
  fun_induction placeEach p place as bs with
  | case1 => rfl
  | case2 => rfl
  | case3 a as b bs ha ih =>
      rw [List.filter_cons_of_neg (by rw [hplace b a ha]; nofun),
        List.filter_cons_of_neg (by rw [hq a ha]; nofun), ih]
  | case4 a as b bs ha ih =>
      rw [List.filter_cons, List.filter_cons, ih]

/-- With a value for each, the values can be read back in order. -/
theorem map_filter_placeEach {g : α → β} (hp : ∀ b a, p a = true → p (place b a) = true)
    (hg : ∀ b a, g (place b a) = b) (as : List α) (bs : List β)
    (hlen : bs.length = (as.filter p).length) :
    ((placeEach p place as bs).filter p).map g = bs := by
  fun_induction placeEach p place as bs with
  | case1 bs => exact (List.eq_nil_of_length_eq_zero hlen).symm
  | case2 a as =>
      rw [List.eq_nil_of_length_eq_zero hlen.symm]
      rfl
  | case3 a as b bs ha ih =>
      rw [List.filter_cons_of_pos ha] at hlen
      rw [List.filter_cons_of_pos (hp b a ha), List.map_cons, hg, ih (Nat.succ.inj hlen)]
  | case4 a as b bs ha ih =>
      rw [List.filter_cons_of_neg ha] at hlen
      rw [List.filter_cons_of_neg ha, ih hlen]

end

/-- Where a window is, or is on its way to. -/
def Window.target {F : Type} (w : Window F) : Rect := w.animTo.getD w.rect

/-- A tiled window is on its way to its rectangle. -/
private theorem tile_target {F : Type} (f : Floats F) (rect : Rect) (w : Window F) :
    (w.tile f rect).target = rect := rfl

namespace Compositor

section
variable {F : Type} (f : Floats F) (c : Compositor F)

/-- Tiling leaves a window on its desktop. -/
theorem onDesk_tile (rect : Rect) (w : Window F) (h : c.onDesk w = true) :
    c.onDesk (w.tile f rect) = true := h

/-- `retile` gives the rectangles of the partition to the windows of the desktop, in
their order. -/
theorem retile_windows :
    (c.retile f).windows = placeEach c.onDesk (Window.tile f) c.windows
      (bspRects c.screen (c.windows.filter c.onDesk).length c.gap) := by
  unfold retile
  dsimp only
  rw [List.length_map, length_filter_zipIdx]
  split
  next hzero =>
    rw [hzero, bspRects, if_pos rfl, placeEach_nil]
  next =>
    exact foldl_modify [] c.windows _

/-- `retile` does not touch the focused id. -/
theorem retile_focused : (c.retile f).focused = c.focused := by
  unfold retile
  dsimp only
  split <;> rfl

/-- Nor the desktop. -/
theorem retile_activeDesk : (c.retile f).activeDesk = c.activeDesk := by
  unfold retile
  dsimp only
  split <;> rfl

/-- Nor the screen. -/
theorem retile_screen : (c.retile f).screen = c.screen := by
  unfold retile
  dsimp only
  split <;> rfl

/-- Nor which windows are on the desktop. -/
theorem retile_onDesk : (c.retile f).onDesk = c.onDesk := by
  unfold onDesk
  rw [retile_activeDesk]

/-- Each visible window of the active desktop gets the rectangle of its turn. -/
theorem retile_targets :
    ((c.retile f).windows.filter c.onDesk).map Window.target =
      bspRects c.screen (c.windows.filter c.onDesk).length c.gap := by
  rw [retile_windows]
  exact map_filter_placeEach (c.onDesk_tile f) (tile_target f) _ _ (bspRects_length _ _ _)

end

end Compositor

/-- **The partition** of an area whose edges fit has one rectangle for each window, in the
area and apart from each other; no coordinate wraps; and `retile` gives them to the visible
windows of the active desktop. -/
theorem bsp_tiling {area : Rect} (h : area.Fits) (n : Nat) (gap : Int32) :
    (bspRects area n gap).length = n ∧ Packed area (bspRects area n gap) ∧ Exact area n gap ∧
      ∀ {F : Type} (f : Floats F) (c : Compositor F), c.screen = area → c.gap = gap →
        (c.windows.filter c.onDesk).length = n →
          ((c.retile f).windows.filter (c.retile f).onDesk).map Window.target =
            bspRects area n gap := by
  refine ⟨bspRects_length area n gap, bspRects_packed h n gap, bspRects_exact h n gap, ?_⟩
  rintro F f c rfl rfl rfl
  rw [Compositor.retile_onDesk]
  exact c.retile_targets f

/-- The screen of the main program. -/
def mainScreen : Rect := ⟨0, 0, 1920, 1080⟩

/-- The screen of `main` fits. -/
theorem mainScreen_fits : mainScreen.Fits := ⟨by decide, by decide⟩

/-- Three windows on the screen of `main`, with the default gap. -/
theorem main_tiling : (bspRects mainScreen 3 4).length = 3 ∧
    Packed mainScreen (bspRects mainScreen 3 4) ∧ Exact mainScreen 3 4 := by
  obtain ⟨hlength, hpacked, hexact, -⟩ := bsp_tiling mainScreen_fits 3 4
  exact ⟨hlength, hpacked, hexact⟩

end WindowManager
