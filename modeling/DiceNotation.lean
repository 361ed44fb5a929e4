import DiceNotation.Main
import DiceNotation.Record.Document
import DiceNotation.Proofs.Evaluation.Failures
import DiceNotation.Proofs.Evaluation.Faithful
import DiceNotation.Proofs.Evaluation.Frozen
import DiceNotation.Proofs.Evaluation.Meaning
import DiceNotation.Proofs.Evaluation.OneByOne
import DiceNotation.Proofs.Evaluation.Verdict
import DiceNotation.Proofs.Evaluation.Whole
import DiceNotation.Proofs.Formula.Pointing
import DiceNotation.Proofs.Fulfillment.Delivery
import DiceNotation.Proofs.Infix.Rereading
import DiceNotation.Proofs.Modifier.Ranking
import DiceNotation.Proofs.Record.RoundTrip
import DiceNotation.Proofs.Roll.Runs
import DiceNotation.Proofs.Roll.Scaled
import DiceNotation.Proofs.Infix.Arithmetic
import DiceNotation.Proofs.Roll.Buildable
import DiceNotation.Proofs.Fulfillment.Watching
import DiceNotation.Proofs.Evaluation.Displayed
