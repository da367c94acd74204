import MatchingEngine.C.PriceTree
import MatchingEngine.Cpp.AssignId
import MatchingEngine.Cpp.Calm
import MatchingEngine.Cpp.Endings
import MatchingEngine.Cpp.IndexHistory
import MatchingEngine.Cpp.PreCheck
import MatchingEngine.Cpp.Prices
import MatchingEngine.Cpp.Priority
import MatchingEngine.Cpp.Refusals
import MatchingEngine.Cpp.Removal
import MatchingEngine.Cpp.Resubmit
import MatchingEngine.Cpp.Status
import MatchingEngine.Cpp.Stops
import MatchingEngine.Cpp.Structure
import MatchingEngine.Cpp.Timestamps
import MatchingEngine.Cpp.Totality
import MatchingEngine.Decode
import MatchingEngine.Engines.Agree
import MatchingEngine.Simulation.Runs
import MatchingEngine.Hand.Agree
import MatchingEngine.Hand.Atomic
import MatchingEngine.Hand.Conserve
import MatchingEngine.Hand.Mirror
import MatchingEngine.Hand.Totals
import MatchingEngine.Hand.Undo
