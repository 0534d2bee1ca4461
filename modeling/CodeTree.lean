import CodeTree.Command.Folder
import CodeTree.Main
import CodeTree.Node.Survey
import CodeTree.Proofs.Affixes
import CodeTree.Proofs.CallScans
import CodeTree.Proofs.Commuting
import CodeTree.Proofs.Copying
import CodeTree.Proofs.Mapping
import CodeTree.Proofs.Operators
import CodeTree.Proofs.Pooling
import CodeTree.Proofs.Refusals
import CodeTree.Proofs.Remnants
import CodeTree.Proofs.Resolving
import CodeTree.Proofs.ScopeChains
import CodeTree.Proofs.Survivors
import CodeTree.Script.Interpreter
