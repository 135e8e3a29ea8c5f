import DancingLinks.Main
import DancingLinks.Queens.Validity
import DancingLinks.Proofs.Rings
import DancingLinks.Proofs.Sweeps
import DancingLinks.Proofs.Dancing
import DancingLinks.Proofs.Table
import DancingLinks.Proofs.Torus
import DancingLinks.Proofs.Covering
import DancingLinks.Proofs.Building
import DancingLinks.Proofs.Nesting
import DancingLinks.Proofs.Exchanging
import DancingLinks.Proofs.Growing
import DancingLinks.Proofs.Guarding
import DancingLinks.Proofs.Exploring
import DancingLinks.Proofs.Restoring
import DancingLinks.Proofs.ExactCovers
import DancingLinks.Proofs.Enumerating
import DancingLinks.Proofs.Concluding
import DancingLinks.Proofs.Surveying
import DancingLinks.Proofs.Keeping
import DancingLinks.Proofs.Conversing
import DancingLinks.Proofs.Interrupting
import DancingLinks.Proofs.WarmingUp
import DancingLinks.Proofs.Sampling
import DancingLinks.Proofs.BreakingOff
import DancingLinks.Proofs.Ascending
import DancingLinks.Proofs.Terminating
import DancingLinks.Proofs.Balancing
import DancingLinks.Proofs.Overrunning
import DancingLinks.Proofs.Accepting
import DancingLinks.Proofs.Ranking
import DancingLinks.Proofs.Queens.Attacks
import DancingLinks.Proofs.Queens.Deciding
import DancingLinks.Proofs.Queens.Cells
import DancingLinks.Proofs.Queens.Labelling
import DancingLinks.Proofs.Queens.Placements
import DancingLinks.Proofs.Queens.RankByRank
import DancingLinks.Proofs.Queens.Counting
import DancingLinks.Proofs.Queens.Sequences
import DancingLinks.Proofs.Queens.Simulating
import DancingLinks.Proofs.Queens.Drawing
import DancingLinks.Proofs.Queens.Viewing
import DancingLinks.Proofs.Queens.Reporting
