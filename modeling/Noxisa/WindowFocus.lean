import Noxisa.Compositor

/-!
# The focus

The compositor keeps the id of the focused window, and each window a flag.  `focus`
sets both, but it does not ask whether there is such a window, and `closeWindow`
leaves the id where it is.  The flags alone always tell which window it is: `Shows`
reads it off them, and the two agree until a step that `Keeps` rules out.
-/

namespace WindowManager

/-- What of a window the focus is about. -/
structure Mark where
  id : Wid
  focused : Bool
  visible : Bool

/-- What the focus is about. -/
def Window.mark {F : Type} (w : Window F) : Mark := ⟨w.id, w.focused, w.visible⟩

/-- The id and the flags tell the same: at most one window has the flag, and it is the
one with the id. -/
structure Consistent {F : Type} (c : Compositor F) : Prop where
  single : (c.windows.filter (·.focused)).length ≤ 1
  focus : ∀ id, c.focused = some id ↔ ∃ w ∈ c.windows, w.id = id ∧ w.focused = true

/-- The focused window is not closed, and no id is focused that no window has. -/
def Keeps {F : Type} (c : Compositor F) : Op F → Prop
  | .closeWindow id => c.focused ≠ some id
  | .focus id => ∃ w ∈ c.windows, w.id = id
  | _ => True

/-- The id of the window with the flag, which is the first one with this id. -/
inductive Shows : List Mark → Option Wid → Prop
  | nobody {marks : List Mark} (h : ∀ m ∈ marks, m.focused = false) : Shows marks none
  | one {before later : List Mark} {m : Mark} (hm : m.focused = true)
      (hrest : ∀ n ∈ before ++ later, n.focused = false) (hfirst : ∀ n ∈ before, n.id ≠ m.id) :
      Shows (before ++ m :: later) (some m.id)

/-- What holds of the windows after any operations. -/
structure Sound {F : Type} (c : Compositor F) (shown : Option Wid) : Prop where
  shows : Shows (c.windows.map Window.mark) shown
  visible : ∀ w ∈ c.windows, w.visible = true

section
variable {F : Type} {f : Floats F} {c c' : Compositor F} {shown : Option Wid}

/-- At most one window is marked. -/
theorem Shows.single {marks : List Mark} (h : Shows marks shown) :
    (marks.filter (·.focused)).length ≤ 1 := by
  have hnone : ∀ l : List Mark, (∀ m ∈ l, m.focused = false) → l.filter (·.focused) = [] := by
    intro l hl
    exact List.filter_eq_nil_iff.mpr fun m hm => by rw [hl m hm]; nofun
  cases h with
  | nobody h =>
      rw [hnone marks h]
      exact Nat.zero_le 1
  | one hm hrest hfirst =>
      rw [List.filter_append, List.filter_cons_of_pos hm,
        hnone _ fun n hn => hrest n (List.mem_append_left _ hn),
        hnone _ fun n hn => hrest n (List.mem_append_right _ hn)]
      exact Nat.le_refl 1

/-- The id that is shown is that of the window that is marked. -/
theorem Shows.mem_iff {marks : List Mark} (h : Shows marks shown) (id : Wid) :
    shown = some id ↔ ∃ m ∈ marks, m.id = id ∧ m.focused = true := by
  cases h with
  | nobody h =>
      refine iff_of_false nofun ?_
      rintro ⟨m, hm, -, hfocused⟩
      rw [h m hm] at hfocused
      cases hfocused
  | @one before later m hm hrest hfirst =>
      rw [Option.some.injEq]
      constructor
      · rintro rfl
        exact ⟨m, List.mem_append_right _ List.mem_cons_self, rfl, hm⟩
      · rintro ⟨n, hn, rfl, hfocused⟩
        rcases List.mem_append.mp hn with hn | hn
        · rw [hrest n (List.mem_append_left _ hn)] at hfocused
          cases hfocused
        · rcases List.mem_cons.mp hn with rfl | hn
          · rfl
          · rw [hrest n (List.mem_append_right _ hn)] at hfocused
            cases hfocused

/-- The focus is consistent if the id is the one that the flags show. -/
theorem Sound.consistent_iff (h : Sound c shown) : Consistent c ↔ c.focused = shown := by
  have hmem : ∀ id, shown = some id ↔ ∃ w ∈ c.windows, w.id = id ∧ w.focused = true := by
    intro id
    rw [h.shows.mem_iff]
    simp [Window.mark]
  have hsingle : (c.windows.filter (·.focused)).length ≤ 1 := by
    have hmarks := h.shows.single
    rw [List.filter_map, List.length_map] at hmarks
    exact hmarks
  constructor
  · intro hc
    refine Option.ext fun id => ?_
    rw [hc.focus, hmem]
  · rintro rfl
    exact ⟨hsingle, hmem⟩

/-- A list with one element less. -/
private theorem sublist_middle {α : Type} (before later : List α) (a : α) :
    List.Sublist (before ++ later) (before ++ a :: later) :=
  (List.sublist_cons_self a later).append_left before

/-- The focus is about the marks alone. -/
theorem Sound.of_marks (h : Sound c shown)
    (hmarks : c'.windows.map Window.mark = c.windows.map Window.mark) : Sound c' shown := by
  refine ⟨by rw [hmarks]; exact h.shows, fun w hw => ?_⟩
  have hmem : w.mark ∈ c.windows.map Window.mark := hmarks ▸ List.mem_map_of_mem hw
  obtain ⟨v, hv, heq⟩ := List.mem_map.mp hmem
  exact (congrArg Mark.visible heq).symm.trans (h.visible v hv)

/-- Tiling leaves the marks alone. -/
theorem Sound.retile (h : Sound c shown) : Sound (c.retile f) shown := by
  refine h.of_marks ?_
  have hkeep : ∀ rect (w : Window F), (w.tile f rect).mark = w.mark := fun _ _ => rfl
  rw [Compositor.retile_windows]
  exact map_placeEach hkeep _ _

/-- Focusing makes no window invisible. -/
theorem focus_visible (h : ∀ w ∈ c.windows, w.visible = true) (id : Wid) :
    ∀ w ∈ (c.focus id).windows, w.visible = true := by
  have hmap : (c.focus id).windows.map Window.visible = c.windows.map Window.visible := by
    have hset : ∀ w : Window F, ({ w with focused := true } : Window F).visible = w.visible :=
      fun _ => rfl
    change (modifyFirst _ _ _).map Window.visible = _
    rw [map_modifyFirst hset, List.map_map]
    rfl
  intro w hw
  have hmem : w.visible ∈ c.windows.map Window.visible := hmap ▸ List.mem_map_of_mem hw
  obtain ⟨v, hv, heq⟩ := List.mem_map.mp hmem
  exact heq.symm.trans (h v hv)

/-- **`focus`** shows the window with the id, if there is one, and otherwise none. -/
theorem Sound.focus (h : Sound c shown) (id : Wid) :
    ∃ shown', Sound (c.focus id) shown' ∧ (shown' = some id ↔ ∃ w ∈ c.windows, w.id = id) := by
  have hvisible := focus_visible h.visible id
  have hcases := modifyFirst_cases (·.id == id) (fun w : Window F => { w with focused := true })
    (c.windows.map fun w => { w with focused := false })
  have hoff : ∀ v ∈ c.windows.map (fun w => { w with focused := false }), v.focused = false := by
    intro v hv
    obtain ⟨w, -, rfl⟩ := List.mem_map.mp hv
    rfl
  rcases hcases with ⟨hnone, heq⟩ | ⟨before, w, later, hsplit, hw, hbefore, heq⟩
  · refine ⟨none, ⟨?_, hvisible⟩, iff_of_false nofun ?_⟩
    · change Shows ((modifyFirst _ _ _).map Window.mark) none
      rw [heq]
      refine .nobody fun m hm => ?_
      obtain ⟨v, hv, rfl⟩ := List.mem_map.mp hm
      exact hoff v hv
    · rintro ⟨v, hv, hid⟩
      have hfalse := hnone _ (List.mem_map_of_mem hv)
      exact absurd hid (beq_eq_false_iff_ne.mp hfalse)
  · obtain rfl : w.id = id := eq_of_beq hw
    refine ⟨some w.id, ⟨?_, hvisible⟩, iff_of_true rfl ?_⟩
    · change Shows ((modifyFirst _ _ _).map Window.mark) (some w.id)
      rw [hsplit] at hoff
      rw [heq, List.map_append, List.map_cons]
      refine .one (m := ({ w with focused := true } : Window F).mark) rfl ?_ ?_
      · intro n hn
        rw [← List.map_append] at hn
        obtain ⟨v, hv, rfl⟩ := List.mem_map.mp hn
        exact hoff v ((sublist_middle before later w).subset hv)
      · intro n hn
        obtain ⟨v, hv, rfl⟩ := List.mem_map.mp hn
        exact beq_eq_false_iff_ne.mp (hbefore v hv)
    · have hmem : w ∈ c.windows.map (fun w => { w with focused := false }) := by
        rw [hsplit]
        exact List.mem_append_right _ List.mem_cons_self
      obtain ⟨v, hv, rfl⟩ := List.mem_map.mp hmem
      exact ⟨v, hv, rfl⟩

/-- Without the first window of an id, the flags show what they showed unless it was that id. -/
theorem Shows.remove {before later : List Mark} {m : Mark} (h : Shows (before ++ m :: later) shown)
    (hbefore : ∀ n ∈ before, n.id ≠ m.id) :
    Shows (before ++ later) (if shown = some m.id then none else shown) := by
  generalize hmarks : before ++ m :: later = marks at h
  cases h with
  | nobody h =>
      rw [← hmarks] at h
      exact .nobody fun n hn => h n ((sublist_middle before later m).subset hn)
  | @one before' later' m' hm' hrest hfirst =>
      rcases List.append_eq_append_iff.mp hmarks with ⟨x, rfl, hx⟩ | ⟨x, rfl, hx⟩
      · cases x with
        | nil =>
            obtain ⟨rfl, rfl⟩ := List.cons.inj hx
            rw [if_pos rfl]
            rw [List.append_nil] at hrest
            exact .nobody hrest
        | cons n x =>
            -- the removed window comes before the one with the flag
            obtain ⟨rfl, rfl⟩ := List.cons.inj hx
            have hne : m.id ≠ m'.id :=
              hfirst m (List.mem_append_right _ List.mem_cons_self)
            rw [if_neg fun heq => hne (Option.some.inj heq).symm]
            have hsub := sublist_middle before x m
            change Shows (before ++ (x ++ m' :: later')) (some m'.id)
            rw [← List.append_assoc]
            exact .one hm' (fun n hn => hrest n ((hsub.append_right later').subset hn))
              fun n hn => hfirst n (hsub.subset hn)
      · cases x with
        | nil =>
            obtain ⟨rfl, rfl⟩ := List.cons.inj hx
            rw [if_pos rfl, List.append_nil]
            exact .nobody hrest
        | cons n x =>
            -- it comes after
            obtain ⟨rfl, rfl⟩ := List.cons.inj hx
            have hne : m'.id ≠ m.id :=
              hbefore m' (List.mem_append_right _ List.mem_cons_self)
            rw [if_neg fun heq => hne (Option.some.inj heq), List.append_assoc]
            have hsub := (sublist_middle x later m).append_left before'
            exact .one hm' (fun n hn => hrest n (hsub.subset hn)) hfirst

/-- **`close_window`** shows what it showed, the closed window apart. -/
theorem Sound.close (h : Sound c shown) (id : Wid) :
    Sound (c.closeWindow f id) (if shown = some id then none else shown) := by
  have hremoved : Sound { c with windows := (modifyFirst (·.id == id)
      (fun w : Window F => { w with visible := false }) c.windows).filter (·.visible) }
        (if shown = some id then none else shown) := by
    rcases modifyFirst_cases (·.id == id) (fun w : Window F => { w with visible := false })
      c.windows with ⟨hnone, heq⟩ | ⟨before, w, later, hsplit, hw, hbefore, heq⟩
    · have hshown : shown ≠ some id := by
        intro hshown
        obtain ⟨m, hm, rfl, -⟩ := (h.shows.mem_iff id).mp hshown
        obtain ⟨w, hw, rfl⟩ := List.mem_map.mp hm
        have hfalse := hnone w hw
        rw [beq_eq_false_iff_ne] at hfalse
        exact hfalse rfl
      rw [heq, if_neg hshown, List.filter_eq_self.mpr h.visible]
      exact h
    · obtain rfl : w.id = id := eq_of_beq hw
      have hvisible := h.visible
      have hshows := h.shows
      rw [hsplit] at hvisible hshows
      have hrest : ∀ v ∈ before ++ later, v.visible = true :=
        fun v hv => hvisible v ((sublist_middle before later w).subset hv)
      have hkept : (before ++ ({ w with visible := false } : Window F) :: later).filter
          (·.visible) = before ++ later := by
        rw [List.filter_append, List.filter_cons_of_neg Bool.false_ne_true, ← List.filter_append]
        exact List.filter_eq_self.mpr hrest
      rw [heq, hkept]
      refine ⟨?_, hrest⟩
      rw [List.map_append, List.map_cons] at hshows
      dsimp only
      rw [List.map_append]
      refine hshows.remove fun n hn => ?_
      obtain ⟨v, hv, rfl⟩ := List.mem_map.mp hn
      exact beq_eq_false_iff_ne.mp (hbefore v hv)
  unfold Compositor.closeWindow
  dsimp only
  split
  · exact hremoved.retile
  · exact hremoved

/-- A window without the flag, at the end. -/
theorem Shows.append {marks : List Mark} (h : Shows marks shown) {m : Mark}
    (hm : m.focused = false) : Shows (marks ++ [m]) shown := by
  cases h with
  | nobody h =>
      refine .nobody fun n hn => ?_
      rcases List.mem_append.mp hn with hn | hn
      · exact h n hn
      · rwa [List.mem_singleton.mp hn]
  | @one before later m' hm' hrest hfirst =>
      rw [List.append_assoc]
      refine .one hm' (fun n hn => ?_) hfirst
      change n ∈ before ++ (later ++ [m]) at hn
      rw [← List.append_assoc] at hn
      rcases List.mem_append.mp hn with hn | hn
      · exact hrest n hn
      · rwa [List.mem_singleton.mp hn]

/-- **`create_window`** shows the new window. -/
theorem Sound.create (h : Sound c shown) (title appId : String) (rect : Rect) :
    Sound (c.createWindow f title appId rect).2 (some c.nextWid) := by
  have hpushed : Sound { c with
      nextWid := c.nextWid + 1
      windows := c.windows ++ [Window.new f c.nextWid title appId rect c.activeDesk] } shown := by
    refine ⟨?_, fun w hw => ?_⟩
    · rw [List.map_append]
      exact h.shows.append rfl
    · rcases List.mem_append.mp hw with hw | hw
      · exact h.visible w hw
      · rw [List.mem_singleton.mp hw]
        rfl
  obtain ⟨shown', hfocus, hshown⟩ := hpushed.focus c.nextWid
  obtain rfl : shown' = some c.nextWid :=
    hshown.mpr ⟨_, List.mem_append_right _ List.mem_cons_self, rfl⟩
  unfold Compositor.createWindow
  dsimp only
  split
  · exact hfocus.retile
  · exact hfocus

/-- A frame of an animation leaves the mark alone. -/
private theorem tick_mark (w : Window F) (dt : F) : (w.tick f dt).mark = w.mark := by
  unfold Window.tick
  dsimp only
  split
  · rfl
  · split <;> rfl

/-- Releasing a window does not touch the focus. -/
theorem releaseWindow_marks (id : Wid) :
    (c.releaseWindow f id).windows.map Window.mark = c.windows.map Window.mark ∧
      (c.releaseWindow f id).focused = c.focused := by
  have hkeep : ∀ rect (w : Window F), (w.animateTo f rect).mark = w.mark := fun _ _ => rfl
  unfold Compositor.releaseWindow
  split
  · exact ⟨rfl, rfl⟩
  · exact ⟨map_modifyFirst (hkeep _) _, rfl⟩

/-- Switching the tiling on or off does not either. -/
theorem Sound.toggle (h : Sound c shown) :
    Sound (c.toggleTiling f) shown ∧ (c.toggleTiling f).focused = c.focused := by
  have htoggled : Sound { c with tiling := !c.tiling } shown := h.of_marks rfl
  unfold Compositor.toggleTiling
  dsimp only
  split
  · exact ⟨htoggled.retile, Compositor.retile_focused f _⟩
  · exact ⟨htoggled, rfl⟩

/-- Nor does another desktop. -/
theorem switchDesktop_same (n : UInt32) :
    (c.switchDesktop n).windows = c.windows ∧ (c.switchDesktop n).focused = c.focused := by
  unfold Compositor.switchDesktop
  split <;> exact ⟨rfl, rfl⟩

/-- A new window is the focused one. -/
theorem createWindow_focused (title appId : String) (rect : Rect) :
    (c.createWindow f title appId rect).2.focused = some c.nextWid := by
  unfold Compositor.createWindow
  dsimp only
  split
  · exact Compositor.retile_focused f _
  · rfl

/-- The focused id is not changed when a window is closed. -/
theorem closeWindow_focused (id : Wid) : (c.closeWindow f id).focused = c.focused := by
  unfold Compositor.closeWindow
  dsimp only
  split
  · exact Compositor.retile_focused f _
  · rfl

/-- A step leads from a consistent state to one exactly if the operation keeps it. -/
theorem Sound.step (h : Sound c shown) (op : Op F) :
    ∃ shown', Sound (c.step f op) shown' ∧
      (c.focused = shown → ((c.step f op).focused = shown' ↔ Keeps c op)) := by
  have hsame : ∀ {c' : Compositor F}, c'.windows.map Window.mark = c.windows.map Window.mark →
      c'.focused = c.focused →
        ∃ shown', Sound c' shown' ∧ (c.focused = shown → (c'.focused = shown' ↔ True)) :=
    fun hmarks hfocused =>
      ⟨shown, h.of_marks hmarks, fun heq => iff_true_intro (hfocused.trans heq)⟩
  cases op with
  | createWindow title appId rect =>
      exact ⟨some c.nextWid, h.create title appId rect,
        fun _ => iff_true_intro (createWindow_focused title appId rect)⟩
  | closeWindow id =>
      refine ⟨_, h.close id, fun hfocused => ?_⟩
      change (c.closeWindow f id).focused = _ ↔ c.focused ≠ some id
      rw [closeWindow_focused, hfocused]
      by_cases hid : shown = some id
      · rw [if_pos hid, hid]
        exact iff_of_false nofun fun hne => hne rfl
      · rw [if_neg hid]
        exact iff_of_true rfl hid
  | focus id =>
      obtain ⟨shown', hfocus, hshown⟩ := h.focus id
      refine ⟨shown', hfocus, fun _ => ?_⟩
      change some id = shown' ↔ ∃ w ∈ c.windows, w.id = id
      rw [eq_comm]
      exact hshown
  | moveWindow id dx dy =>
      refine hsame ?_ rfl
      change (modifyFirst _ _ _).map Window.mark = _
      refine map_modifyFirst ?_ c.windows
      intro w
      rfl
  | snap id zone =>
      refine hsame ?_ rfl
      change (modifyFirst _ _ _).map Window.mark = _
      refine map_modifyFirst ?_ c.windows
      intro w
      rfl
  | releaseWindow id => exact hsame (releaseWindow_marks id).1 (releaseWindow_marks id).2
  | toggleTiling =>
      exact ⟨shown, h.toggle.1, fun hfocused => iff_true_intro (h.toggle.2.trans hfocused)⟩
  | switchDesktop n =>
      obtain ⟨hwindows, hfocused⟩ := switchDesktop_same (c := c) n
      exact hsame (congrArg (List.map Window.mark) hwindows) hfocused
  | tick dt =>
      refine hsame ?_ rfl
      change (c.windows.map (·.tick f dt)).map Window.mark = _
      rw [List.map_map]
      exact List.map_congr_left fun w _ => tick_mark w dt

end

section
variable {F : Type} (f : Floats F) (screen : Rect)

/-- **Every run** shows at most one window. -/
theorem run_sound (ops : List (Op F)) : ∃ shown, Sound (Compositor.run f screen ops) shown := by
  induction ops using List.reverseRecOn with
  | nil => exact ⟨none, .nobody (List.forall_mem_nil _), List.forall_mem_nil _⟩
  | append_singleton ops op ih =>
      obtain ⟨shown, h⟩ := ih
      obtain ⟨shown', h', -⟩ := h.step (f := f) op
      rw [Compositor.run_append]
      exact ⟨shown', h'⟩

/-- After a run that ends in a consistent state, one more operation does exactly if it keeps it. -/
private theorem consistent_snoc {ops : List (Op F)} (h : Consistent (Compositor.run f screen ops))
    (op : Op F) : Consistent (Compositor.run f screen (ops ++ [op])) ↔
      Keeps (Compositor.run f screen ops) op := by
  obtain ⟨shown, hsound⟩ := run_sound f screen ops
  obtain ⟨shown', hsound', hiff⟩ := hsound.step (f := f) op
  rw [Compositor.run_append, hsound'.consistent_iff]
  exact hiff (hsound.consistent_iff.mp h)

/-- **The focus** is consistent all along a run exactly if every operation of the run keeps
it so. -/
theorem focus_consistent (ops : List (Op F)) :
    (∀ before, before <+: ops → Consistent (Compositor.run f screen before)) ↔
      ∀ before op, before ++ [op] <+: ops → Keeps (Compositor.run f screen before) op := by
  have hboot : Sound (Compositor.run f screen []) none :=
    ⟨.nobody (List.forall_mem_nil _), List.forall_mem_nil _⟩
  exact forall_prefix_iff (hboot.consistent_iff.mpr rfl)
    fun before op _ h => consistent_snoc f screen h op

end

/-- The id of a closed window stays. -/
theorem closed_focused : ¬ ∀ (ops : List (Op Unit)),
    Consistent (Compositor.run still mainScreen ops) := by
  intro h
  have hfocus := (h [.createWindow "Terminal" "term" ⟨0, 0, 800, 600⟩, .closeWindow 1]).focus 1
  obtain ⟨w, hw, -⟩ := hfocus.mp (by decide +kernel)
  have hnone : (Compositor.run still mainScreen
      [.createWindow "Terminal" "term" ⟨0, 0, 800, 600⟩, .closeWindow 1]).windows = [] := rfl
  rw [hnone] at hw
  cases hw

end WindowManager
