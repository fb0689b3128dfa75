import Noxisa.Compositor

/-!
# Tiling mode

Creating a window, closing one and turning the tiling on all retile the active
desktop.  Switching to another desktop does not, so the windows that were put there
while the tiling was off stay where they are: they are the floating ones.  The others
keep the rectangles of the last partition, minus those of the closed ones.
-/

namespace WindowManager

/-- The operations that tiling is about. -/
def Op.arranges {F : Type} : Op F → Bool
  | .createWindow _ _ _ | .closeWindow _ | .toggleTiling | .switchDesktop _ => true
  | _ => false

section
variable {F : Type}

/-- A visible window of a desktop. -/
def onDesktop (desk : UInt32) (w : Window F) : Bool := w.visible && w.desktop == desk

/-- With the tiling on, the active desktop is tiled. -/
def Tidy (c : Compositor F) : Prop :=
  c.tiling = true → Packed c.screen ((c.windows.filter c.onDesk).map Window.target)

/-- The windows of a desktop that never were tiled are in the screen, apart from each other
and from the tiled ones. -/
structure Joins (c : Compositor F) (desk : UInt32) : Prop where
  within : ∀ w ∈ c.windows.filter (onDesktop desk), w.floating = true → w.target.Within c.screen
  apart : (c.windows.filter (onDesktop desk)).Pairwise fun v w =>
    (v.floating || w.floating) = true → v.target.Apart w.target

/-- A switch of the desktop does not lead to one with floating windows in the way. -/
def Meets (c : Compositor F) : Op F → Prop
  | .switchDesktop n => c.tiling = true → n < c.desktops.length.toUInt32 → Joins c n
  | _ => True

/-- A window of the desktop that was tiled. -/
def tiled (desk : UInt32) (w : Window F) : Bool := !w.floating && onDesktop desk w

/-- On every desktop, the windows that were tiled are. -/
def Placed (c : Compositor F) : Prop :=
  ∀ desk, Packed c.screen ((c.windows.filter (tiled desk)).map Window.target)

end

section
variable {F : Type} {f : Floats F} {c c' : Compositor F}

/-- A desktop is packed if its tiled windows are and the others join them. -/
theorem packed_iff (h : Placed c) (desk : UInt32) :
    Packed c.screen ((c.windows.filter (onDesktop desk)).map Window.target) ↔ Joins c desk := by
  have hplaced := h desk
  have hfilter : c.windows.filter (tiled desk) =
      (c.windows.filter (onDesktop desk)).filter fun w => !w.floating :=
    (List.filter_filter).symm
  rw [hfilter] at hplaced
  constructor
  · intro hpacked
    refine ⟨fun w hw _ => hpacked.within _ (List.mem_map_of_mem hw), ?_⟩
    refine (List.pairwise_map.mp hpacked.apart).imp ?_
    exact fun hvw _ => hvw
  · intro hjoins
    refine ⟨fun r hr => ?_, List.pairwise_map.mpr ?_⟩
    · obtain ⟨w, hw, rfl⟩ := List.mem_map.mp hr
      by_cases hfloating : w.floating = true
      · exact hjoins.within w hw hfloating
      · have htiled : (!w.floating) = true := by
          rw [Bool.eq_false_iff.mpr hfloating]
          rfl
        exact hplaced.within _ (List.mem_map_of_mem (List.mem_filter.mpr ⟨hw, htiled⟩))
    · have htiled := List.pairwise_filter.mp (List.pairwise_map.mp hplaced.apart)
      refine (hjoins.apart.and htiled).imp ?_
      rintro v w ⟨hfloating, htiled⟩
      by_cases hvw : (v.floating || w.floating) = true
      · exact hfloating hvw
      · obtain ⟨hv, hw⟩ := Bool.or_eq_false_iff.mp (Bool.eq_false_iff.mpr hvw)
        exact htiled (by rw [hv]; rfl) (by rw [hw]; rfl)

/-- Fewer windows are placed too. -/
theorem Placed.sublist (h : Placed c) (hscreen : c'.screen = c.screen)
    (hsub : ∀ desk, List.Sublist ((c'.windows.filter (tiled desk)).map Window.target)
      ((c.windows.filter (tiled desk)).map Window.target)) : Placed c' := by
  intro desk
  rw [hscreen]
  exact (h desk).sublist (hsub desk)

/-- Retiling packs the active desktop and leaves the others. -/
theorem retile_placed (hfits : c.screen.Fits) (h : Placed c) :
    Placed (c.retile f) ∧ Tidy (c.retile f) := by
  have hscreen : (c.retile f).screen = c.screen := c.retile_screen f
  have hactive : Packed c.screen (((c.retile f).windows.filter c.onDesk).map Window.target) := by
    rw [c.retile_targets f]
    exact bspRects_packed hfits _ _
  refine ⟨fun desk => ?_, fun _ => ?_⟩
  · rw [hscreen]
    by_cases hdesk : desk = c.activeDesk
    · have hfilter : (c.retile f).windows.filter (tiled desk) =
          ((c.retile f).windows.filter c.onDesk).filter fun w => !w.floating := by
        rw [List.filter_filter, hdesk]
        rfl
      rw [hfilter]
      exact hactive.sublist (List.filter_sublist.map _)
    · -- no window of another desktop is touched
      have hother : ∀ w : Window F, c.onDesk w = true → tiled desk w = false := by
        intro w hw
        obtain ⟨-, hw⟩ := (Bool.and_eq_true _ _).mp hw
        have hne : (w.desktop == desk) = false := by
          rw [eq_of_beq hw]
          exact beq_eq_false_iff_ne.mpr (Ne.symm hdesk)
        unfold tiled onDesktop
        rw [hne, Bool.and_false, Bool.and_false]
      rw [c.retile_windows f, filter_placeEach hother fun _ w hw => hother _ (c.onDesk_tile f _ w hw)]
      exact h desk
  · rw [hscreen, c.retile_onDesk f]
    exact hactive

/-- A new window floats; the focus changes nothing here. -/
theorem create_placed (h : Placed c) (title appId : String) (rect : Rect) :
    Placed (Compositor.focus { c with
      nextWid := c.nextWid + 1
      windows := c.windows ++ [Window.new f c.nextWid title appId rect c.activeDesk] } c.nextWid) := by
  refine h.sublist rfl fun desk => ?_
  have hfocus := focus_filter_map (q := tiled desk) (g := Window.target) (fun _ _ => rfl) (fun _ _ => rfl)
    { c with
      nextWid := c.nextWid + 1
      windows := c.windows ++ [Window.new f c.nextWid title appId rect c.activeDesk] } c.nextWid
  rw [hfocus]
  dsimp only
  rw [List.filter_append, List.filter_singleton]
  exact (List.append_nil _).symm ▸ List.Sublist.refl _

/-- Closing leaves some of the windows. -/
private theorem close_sublist (id : Wid) :
    List.Sublist ((modifyFirst (·.id == id) (fun w : Window F => { w with visible := false })
      c.windows).filter (·.visible)) c.windows := by
  rcases modifyFirst_cases (·.id == id) (fun w : Window F => { w with visible := false })
    c.windows with ⟨-, heq⟩ | ⟨before, w, later, hsplit, -, -, heq⟩
  · rw [heq]
    exact List.filter_sublist
  · rw [heq, hsplit, List.filter_append, List.filter_cons_of_neg Bool.false_ne_true]
    exact List.filter_sublist.append (List.filter_sublist.cons w)

/-- Arranging windows leaves the screen as it is. -/
theorem step_screen {op : Op F} (hop : op.arranges = true) : (c.step f op).screen = c.screen := by
  have hretile : ∀ {c' : Compositor F}, c'.screen = c.screen →
      (if c'.tiling then c'.retile f else c').screen = c.screen := by
    intro c' hscreen
    split
    · exact (Compositor.retile_screen f c').trans hscreen
    · exact hscreen
  cases op with
  | createWindow title appId rect => exact hretile rfl
  | closeWindow id => exact @hretile { c with windows := _ } rfl
  | toggleTiling => exact @hretile { c with tiling := !c.tiling } rfl
  | switchDesktop n =>
      change (c.switchDesktop n).screen = c.screen
      unfold Compositor.switchDesktop
      split <;> rfl
  | _ => cases hop

/-- One operation of these leaves what was tiled, and leaves the active desktop tiled exactly
if it meets the condition. -/
theorem Placed.step (hfits : c.screen.Fits) (h : Placed c) {op : Op F}
    (hop : op.arranges = true) :
    Placed (c.step f op) ∧ (Tidy c → (Tidy (c.step f op) ↔ Meets c op)) := by
  have hretile : ∀ {c' : Compositor F}, c'.screen = c.screen → Placed c' →
      Placed (if c'.tiling then c'.retile f else c') ∧
        (Tidy c → (Tidy (if c'.tiling then c'.retile f else c') ↔ True)) := by
    intro c' hscreen hplaced
    split
    next htiling =>
      obtain ⟨hplaced', htidy'⟩ := retile_placed (f := f) (hscreen ▸ hfits) hplaced
      exact ⟨hplaced', fun _ => iff_true_intro htidy'⟩
    next htiling => exact ⟨hplaced, fun _ => iff_true_intro fun hon => absurd hon htiling⟩
  cases op with
  | createWindow title appId rect => exact hretile rfl (create_placed h title appId rect)
  | closeWindow id =>
      refine @hretile { c with windows := _ } rfl (h.sublist rfl fun desk => ?_)
      exact ((close_sublist id).filter _).map _
  | toggleTiling => exact @hretile { c with tiling := !c.tiling } rfl h
  | switchDesktop n =>
      change Placed (c.switchDesktop n) ∧ (Tidy c → (Tidy (c.switchDesktop n) ↔
        (c.tiling = true → n < c.desktops.length.toUInt32 → Joins c n)))
      unfold Compositor.switchDesktop
      split
      next hn =>
        refine ⟨h, fun _ => imp_congr_right fun _ => ?_⟩
        rw [imp_iff_right hn]
        exact packed_iff h n
      next hn => exact ⟨h, fun htidy => iff_of_true htidy fun _ hn' => absurd hn' hn⟩
  | _ => cases hop

end

section
variable {F : Type} (f : Floats F) {screen : Rect}

/-- In every run of arranging calls the windows are where they were placed. -/
theorem run_placed (hfits : screen.Fits) {ops : List (Op F)}
    (hops : ∀ op ∈ ops, op.arranges = true) :
    (Compositor.run f screen ops).screen = screen ∧ Placed (Compositor.run f screen ops) := by
  induction ops using List.reverseRecOn with
  | nil => exact ⟨rfl, fun _ => Packed.nil screen⟩
  | append_singleton ops op ih =>
      obtain ⟨hscreen, h⟩ := ih fun op' hop' => hops op' (List.mem_append_left _ hop')
      have hop : op.arranges = true := hops op (List.mem_append_right _ (List.mem_singleton.mpr rfl))
      rw [Compositor.run_append]
      exact ⟨(step_screen hop).trans hscreen, (h.step (hscreen.symm ▸ hfits) hop).1⟩

/-- **Tiling mode** keeps the active desktop tiled all along a run on a screen whose edges
fit exactly if every switch of the desktop meets the condition. -/
theorem tiling_kept (hfits : screen.Fits) {ops : List (Op F)}
    (hops : ∀ op ∈ ops, op.arranges = true) :
    (∀ before, before <+: ops → Tidy (Compositor.run f screen before)) ↔
      ∀ before op, before ++ [op] <+: ops → Meets (Compositor.run f screen before) op := by
  refine forall_prefix_iff nofun fun before op hbefore h => ?_
  have harranges : ∀ op' ∈ before ++ [op], op'.arranges = true :=
    fun op' hop' => hops op' (hbefore.subset hop')
  obtain ⟨hscreen, hplaced⟩ :=
    run_placed f hfits fun op' hop' => harranges op' (List.mem_append_left _ hop')
  have hop := harranges op (List.mem_append_right _ (List.mem_singleton.mpr rfl))
  rw [Compositor.run_append]
  exact (hplaced.step (hscreen.symm ▸ hfits) hop).2 h

end

/-- The windows of one desktop, made and closed while the tiling is on. -/
theorem main_kept : Tidy (Compositor.run still mainScreen [.toggleTiling,
    .createWindow "Terminal" "term" ⟨0, 0, 800, 600⟩,
    .createWindow "Files" "files" ⟨0, 0, 800, 600⟩, .closeWindow 1]) := by
  refine (tiling_kept still mainScreen_fits (by decide)).mpr (fun before op hbefore => ?_) _
    List.prefix_rfl
  have hop := hbefore.subset (List.mem_append_right _ (List.mem_singleton.mpr rfl))
  cases op with
  | switchDesktop n => simp at hop
  | _ => trivial

/-- Two windows are put on a desktop before the tiling is turned on elsewhere, and the
desktop is switched to. -/
theorem windows_overlap : ¬ ∀ (ops : List (Op Unit)), (∀ op ∈ ops, op.arranges = true) →
    Tidy (Compositor.run still mainScreen ops) := by
  intro h
  have htidy := h [.switchDesktop 1, .createWindow "Terminal" "term" ⟨0, 0, 800, 600⟩,
    .createWindow "Files" "files" ⟨0, 0, 800, 600⟩, .switchDesktop 0, .toggleTiling,
    .switchDesktop 1] (by decide)
  have hpacked : Packed mainScreen [⟨0, 0, 800, 600⟩, ⟨0, 0, 800, 600⟩] := htidy rfl
  have hapart : Rect.Apart ⟨0, 0, 800, 600⟩ ⟨0, 0, 800, 600⟩ :=
    List.rel_of_pairwise_cons hpacked.apart List.mem_cons_self
  have hcorner : ((0, 0) : Int × Int) ∈ Rect.interior ⟨0, 0, 800, 600⟩ :=
    ⟨⟨by decide, by decide⟩, by decide, by decide⟩
  exact Set.disjoint_left.mp hapart hcorner hcorner

end WindowManager
