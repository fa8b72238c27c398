import JobGraph.Workflow.Basic

/-!
# Selecting and hovering

A view points at jobs in two ways: it selects one, and its pointer hovers over one.  The job itself
knows about either.
-/

namespace JobGraph.Workflow

/-- The node that an optional reference names. -/
def findKey? (w : Workflow) : Option JobRef → Except WorkflowError (Option NodeKey)
  | none => .ok none
  | some ref => (w.findKey ref).map some

/-- Changes the job of an optional node. -/
def modifyJob? (w : Workflow) (key : Option NodeKey) (change : Job → Job) : Workflow :=
  match key with
  | none => w
  | some key => w.modifyJob key change

/-- Moves the selection to a node or to none. -/
def setSelected (w : Workflow) (key : Option NodeKey) : Workflow :=
  let cleared := w.modifyJob? w.selected fun job => { job with isSelected := false }
  { cleared.modifyJob? key fun job => { job with isSelected := true } with selected := key }

/-- Moves the pointer to a node or to none. -/
def setHovered (w : Workflow) (key : Option NodeKey) : Workflow :=
  let cleared := w.modifyJob? w.hovered fun job => { job with isHovered := false }
  { cleared.modifyJob? key fun job => { job with isHovered := true } with hovered := key }

/-- Selects a job, or none.  Selecting the selected job deselects it.  The answer is the job that is
selected then. -/
def select (w : Workflow) (ref : Option JobRef) :
    Reaction Workflow (Except WorkflowError (Option Job)) :=
  match w.findKey? ref with
  | .error error => ⟨w, [], .error error⟩
  | .ok key =>
      let current := if key = w.selected then none else key
      let changed := w.setSelected current
      ⟨changed, [.jobSelected (changed.refOf current) (changed.refOf w.selected)],
        .ok changed.selectedJob?⟩

/-- Hovers over a job, or over none.  Hovering over the same job again changes nothing. -/
def hover (w : Workflow) (ref : Option JobRef) :
    Reaction Workflow (Except WorkflowError (Option Job)) :=
  match w.findKey? ref with
  | .error error => ⟨w, [], .error error⟩
  | .ok key =>
      if key = w.hovered then ⟨w, [], .ok w.hoveredJob?⟩
      else
        let changed := w.setHovered key
        ⟨changed, [.jobHovered (changed.refOf key) (changed.refOf w.hovered)],
          .ok changed.hoveredJob?⟩

end JobGraph.Workflow
